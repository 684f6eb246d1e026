import TileStore.Ledger
import TileStore.Proofs.Mutation
import TileStore.Proofs.Shelf

/-!
# What a ledger charges

`Balanced` says that the sums of a ledger are those of some entries, as far as words can hold them.
`account` keeps a ledger balanced, and it cannot fail while the sums fit: `account_meets`.
-/

namespace TileStore.Ledger

variable {l l' : Ledger} {es fs : List Entry}

/-- The sums are those of some entries, as words. -/
structure Balanced (l : Ledger) (es : List Entry) : Prop where
  memoryUsed : l.memoryUsed = UInt64.ofNat (total es)
  tileCount : l.tileCount = UInt64.ofNat es.length

/-- Everything but the sums is the same. -/
def Recharged (l l' : Ledger) : Prop :=
  l' = { l with memoryUsed := l'.memoryUsed, tileCount := l'.tileCount }

/-- The settings that eviction passes go by are the same. -/
def SameBounds (l l' : Ledger) : Prop := l'.capacity = l.capacity ∧ l'.threshold = l.threshold

/-- Everything but the settings and the counters is the same. -/
def Retuned (l l' : Ledger) : Prop :=
  l' = { l with capacity := l'.capacity, threshold := l'.threshold, counters := l'.counters }

namespace Balanced

theorem perm (h : l.Balanced es) (hp : es.Perm fs) : l.Balanced fs :=
  ⟨total_perm hp ▸ h.memoryUsed, hp.length_eq ▸ h.tileCount⟩

/-- Sums that fit are the sums themselves. -/
theorem memoryUsed_toNat {spare : Nat} (h : l.Balanced es) (hf : Fits es spare) :
    l.memoryUsed.toNat = total es := by
  have := hf.total_lt
  rw [h.memoryUsed]
  exact UInt64.toNat_ofNat_of_lt' (by change total es < 2 ^ 64; omega)

theorem tileCount_toNat (h : l.Balanced es) (hl : es.length < 2 ^ 64) :
    l.tileCount.toNat = es.length := by
  rw [h.tileCount]
  exact UInt64.toNat_ofNat_of_lt' hl

end Balanced

namespace Recharged

theorem trans {l'' : Ledger} (h : l.Recharged l') (h' : l'.Recharged l'') : l.Recharged l'' := by
  unfold Recharged at *
  rw [h] at h'
  exact h'

theorem overhead (h : l.Recharged l') : l'.overhead = l.overhead := by rw [h]

theorem sameBounds (h : l.Recharged l') : l.SameBounds l' := by
  rw [h]
  exact ⟨rfl, rfl⟩

end Recharged

namespace SameBounds

theorem trans {l'' : Ledger} (h : l.SameBounds l') (h' : l'.SameBounds l'') : l.SameBounds l'' :=
  ⟨h'.1.trans h.1, h'.2.trans h.2⟩

theorem target (h : l.SameBounds l') : l'.target = l.target := by
  rw [Ledger.target, Ledger.target, h.1, h.2]

end SameBounds

theorem Balanced.retuned (h : l.Balanced es) (hl : l.Retuned l') : l'.Balanced es := by
  rw [hl]
  exact ⟨h.memoryUsed, h.tileCount⟩

theorem setCapacity_eq (l : Ledger) (bytes : UInt64) : l.setCapacity bytes =
    if bytes = 0 then .error (.capacity bytes) else .ok { l with capacity := bytes } := by
  unfold setCapacity checkCapacity
  split <;> rfl

theorem setThreshold_eq (l : Ledger) (t : Binary64) : l.setThreshold t =
    if t.isFraction then .ok { l with threshold := t } else .error (.threshold t) := by
  unfold setThreshold checkThreshold
  split <;> rfl

theorem retuned_of_setCapacity {bytes : UInt64} (h : l.setCapacity bytes = .ok l') :
    l.Retuned l' := by
  rw [setCapacity_eq] at h
  split at h
  · cases h
  · cases h
    rfl

theorem retuned_of_setThreshold {t : Binary64} (h : l.setThreshold t = .ok l') : l.Retuned l' := by
  rw [setThreshold_eq] at h
  split at h
  · cases h
    rfl
  · cases h

theorem new_balanced (s : Settings) (observers : Nat) : (new s observers).Balanced [] := ⟨rfl, rfl⟩

theorem release_meets (size : UInt64) (l : Ledger) :
    (release size).Meets l (size.toNat ≤ l.memoryUsed.toNat)
      fun _ l' => l' = { l with memoryUsed := l.memoryUsed - size } := by
  unfold Mutation.Meets
  rw [result_release]
  split
  · next h =>
    split at h
    · cases h
    · exact (Prod.mk.inj h).2.symm
  · next h =>
    split at h
    · next hlt => exact Nat.not_le.2 (UInt64.lt_iff_toNat_lt.1 hlt)
    · cases h

theorem account_came_meets (c : Entry) {safe : Prop} (h : l.Balanced es) :
    (account (some c.size) none).Meets l safe
      fun _ l' => l.Recharged l' ∧ l'.Balanced (c :: es) := by
  have hm := congrArg UInt64.toNat h.memoryUsed
  have hc := congrArg UInt64.toNat h.tileCount
  rw [UInt64.toNat_ofNat'] at hm hc
  refine Mutation.meets_modify.2 ⟨rfl, UInt64.toNat_inj.1 ?_, UInt64.toNat_inj.1 ?_⟩
  · simp [charge] at hm ⊢
    omega
  · simp at hc ⊢
    omega

/-- An entry goes, which is released while the sums fit. -/
theorem account_went_meets (w : Entry) (h : l.Balanced (w :: es)) :
    (account none (some w.size)).Meets l (Fits (w :: es) 0)
      fun _ l' => l.Recharged l' ∧ l'.Balanced es := by
  have hm := congrArg UInt64.toNat h.memoryUsed
  have hc := congrArg UInt64.toNat h.tileCount
  rw [UInt64.toNat_ofNat'] at hm hc
  refine Mutation.meets_bind.2 ((release_meets w.size l).mono (fun hf => ?_) ?_)
  · have := hf.total_lt
    simp at this hm
    omega
  · rintro _ _ rfl
    simp only [Mutation.meets_bind, Mutation.meets_get, Mutation.meets_set]
    split
    · next h0 =>
      refine Mutation.meets_throw.2 fun hf => ?_
      have := hf.length_lt
      rw [h0] at hc
      simp at this hc
      omega
    · refine Mutation.meets_pure.2 ⟨rfl, UInt64.toNat_inj.1 ?_, UInt64.toNat_inj.1 ?_⟩
      · have := w.size.toNat_lt
        simp [UInt64.toNat_sub] at hm ⊢
        omega
      · simp [UInt64.toNat_sub] at hc ⊢
        omega

/-- One entry comes for another, which is released after the first is charged. -/
theorem account_replaced_meets (c w : Entry) (h : l.Balanced (w :: es)) :
    (account (some c.size) (some w.size)).Meets l (Fits (w :: es) c.size.toNat)
      fun _ l' => l.Recharged l' ∧ l'.Balanced (c :: es) := by
  have hm := congrArg UInt64.toNat h.memoryUsed
  rw [UInt64.toNat_ofNat'] at hm
  refine Mutation.meets_bind.2 (Mutation.meets_modify.2 ((release_meets w.size _).mono ?_ ?_))
  · intro hf
    have := hf.total_lt
    simp [charge] at this hm ⊢
    omega
  · rintro _ _ rfl
    refine ⟨rfl, UInt64.toNat_inj.1 ?_, h.tileCount⟩
    have := w.size.toNat_lt
    simp [charge, UInt64.toNat_sub] at hm ⊢
    omega

/-- What a ledger charges after an entry came and another went. -/
theorem account_meets (came went : Option Entry) {rest : List Entry}
    (h : l.Balanced (went.toList ++ rest)) :
    (account (came.map (·.size)) (went.map (·.size))).Meets l
      (Fits (went.toList ++ rest) (came.elim 0 (·.size.toNat)))
      fun _ l' => l.Recharged l' ∧ l'.Balanced (came.toList ++ rest) := by
  cases came with
  | none =>
    cases went with
    | none => exact ⟨rfl, h⟩
    | some w => exact account_went_meets w h
  | some c =>
    cases went with
    | none => exact account_came_meets c h
    | some w => exact account_replaced_meets c w h

end TileStore.Ledger
