import TileStore.Proofs.Vault
import Mathlib.Data.List.Infix

/-!
# Queues of victims

An eviction pass takes entries from a queue, first come, first gone, until what is left in use meets
the target. `Shortest` says which entries go then: the shortest part of the queue in front that is
enough. There is one only, and where a pass takes from one queue and then from another, it takes from
the one after the other: `Shortest.append`.

The queue itself is what may go, in strictly increasing order of some key: `InLine`. A pass that looks
for the least key again before each victim takes from that queue all the same, since the entry that it
finds is the one in front: `InLine.uncons`.
-/

namespace TileStore

open Std (OrientedCmp TransCmp TransOrd)

variable {target used : UInt64} {queue queue' victims victims' es fs : List Entry} {e f : Entry}
  {protect : Option TileKey}

/-! ### What is left in use -/

/-- What is left in use when these entries have gone. -/
def usedWithout (used : UInt64) (gone : List Entry) : UInt64 := used - UInt64.ofNat (total gone)

@[simp] theorem usedWithout_nil (used : UInt64) : usedWithout used [] = used := by
  simp [usedWithout]

theorem usedWithout_append (used : UInt64) (es fs : List Entry) :
    usedWithout used (es ++ fs) = usedWithout (usedWithout used es) fs := by
  rw [usedWithout, usedWithout, usedWithout, total_append, UInt64.ofNat_add,
    UInt64.sub_eq_add_neg, UInt64.neg_add, UInt64.sub_eq_add_neg, UInt64.sub_eq_add_neg,
    UInt64.sub_eq_add_neg, UInt64.add_assoc]

theorem usedWithout_cons (used : UInt64) (e : Entry) (es : List Entry) :
    usedWithout used (e :: es) = usedWithout (usedWithout used [e]) es :=
  usedWithout_append used [e] es

/-- A ledger that charges what is left. -/
theorem Ledger.Balanced.usedWithout {l l' : Ledger} (h : l.Balanced es) (h' : l'.Balanced fs)
    (hp : es.Perm (victims ++ fs)) : l'.memoryUsed = usedWithout l.memoryUsed victims := by
  rw [TileStore.usedWithout, h.memoryUsed, h'.memoryUsed, total_perm hp, total_append,
    UInt64.ofNat_add, UInt64.add_comm, UInt64.add_sub_cancel]

/-! ### The shortest part that is enough -/

/-- The victims are the shortest part of a queue in front after which no more is in use than the
target, or all of it. -/
structure Shortest (target used : UInt64) (queue victims : List Entry) : Prop where
  first : victims <+: queue
  met : usedWithout used victims ≤ target ∨ victims = queue
  needed : ∀ shorter, shorter <+: queue → shorter.length < victims.length →
    target < usedWithout used shorter

namespace Shortest

theorem none_of_le (h : used ≤ target) : Shortest target used queue [] where
  first := List.nil_prefix
  met := .inl (by rwa [usedWithout_nil])
  needed _ _ := nofun

theorem nil : Shortest target used [] [] := ⟨List.prefix_rfl, .inr rfl, fun _ _ => nofun⟩

/-- At the target nothing has to go. -/
theorem eq_nil_of_le (h : Shortest target used queue victims) (hle : used ≤ target) :
    victims = [] := by
  by_contra hne
  have habove := h.needed [] List.nil_prefix (List.length_pos_iff.2 hne)
  rw [usedWithout_nil] at habove
  exact UInt64.not_lt.2 hle habove

/-- Above the target the entry in front has to go. -/
theorem cons (ht : target < used) (h : Shortest target (usedWithout used [e]) queue victims) :
    Shortest target used (e :: queue) (e :: victims) where
  first := List.cons_prefix_cons.2 ⟨rfl, h.first⟩
  met := by
    rw [usedWithout_cons]
    exact h.met.imp_right (congrArg (e :: ·))
  needed shorter hs hlength := by
    rcases List.prefix_cons_iff.1 hs with rfl | ⟨rest, rfl, hrest⟩
    · rwa [usedWithout_nil]
    · rw [usedWithout_cons]
      exact h.needed rest hrest (Nat.lt_of_succ_lt_succ hlength)

/-- What goes of one queue and then of another goes of the one followed by the other. -/
theorem append (h : Shortest target used queue victims)
    (h' : Shortest target (usedWithout used victims) queue' victims') :
    Shortest target used (queue ++ queue') (victims ++ victims') := by
  rcases victims' with _ | ⟨c, rest⟩
  · rw [List.append_nil]
    have hfirst : victims <+: queue ++ queue' := h.first.trans (List.prefix_append ..)
    refine ⟨hfirst, ?_, fun shorter hs hlength => ?_⟩
    · rcases h'.met with hmet | rfl
      · exact .inl (by rwa [usedWithout_nil] at hmet)
      · rw [List.append_nil]
        exact h.met
    · have hshorter := List.prefix_of_prefix_length_le hs hfirst hlength.le
      exact h.needed shorter (hshorter.trans h.first) hlength
  · -- the second queue is begun only when the first has run out
    have habove : target < usedWithout used victims := by
      have := h'.needed [] List.nil_prefix (Nat.succ_pos _)
      rwa [usedWithout_nil] at this
    obtain rfl : victims = queue := h.met.resolve_left (UInt64.not_le.2 habove)
    refine ⟨(List.prefix_append_right_inj _).2 h'.first, ?_, fun shorter hs hlength => ?_⟩
    · rw [usedWithout_append]
      exact h'.met.imp_right (congrArg (victims ++ ·))
    · rcases Nat.lt_or_ge shorter.length victims.length with hlt | hge
      · exact h.needed shorter
          (List.prefix_of_prefix_length_le hs (List.prefix_append ..) hlt.le) hlt
      · obtain ⟨more, rfl⟩ := List.prefix_of_prefix_length_le (List.prefix_append ..) hs hge
        rw [usedWithout_append]
        refine h'.needed more ((List.prefix_append_right_inj _).1 hs) ?_
        rw [List.length_append, List.length_append] at hlength
        omega

/-- What is taken from the front stops before what is not taken. -/
theorem stops_before {front back : List Entry}
    (h : Shortest target used (front ++ e :: back) victims) (he : e ∉ victims) :
    victims <+: front ∧ usedWithout used victims ≤ target := by
  have hshort : victims.length ≤ front.length := by
    by_contra hlong
    have hfront : front ++ [e] <+: victims := by
      refine List.prefix_of_prefix_length_le ?_ h.first ?_
      · exact (List.prefix_append_right_inj front).2 (List.cons_prefix_cons.2 ⟨rfl, List.nil_prefix⟩)
      · rw [List.length_append, List.length_singleton]
        omega
    exact he (hfront.mem (by simp))
  refine ⟨List.prefix_of_prefix_length_le h.first (List.prefix_append ..) hshort, ?_⟩
  refine h.met.resolve_right ?_
  rintro rfl
  exact he (by simp)

/-- There is one part only that is the shortest. -/
theorem unique (h : Shortest target used queue victims) (h' : Shortest target used queue victims') :
    victims' = victims := by
  have hle : ∀ {vs ws}, Shortest target used queue vs → Shortest target used queue ws →
      ws.length ≤ vs.length := by
    intro vs ws hv hw
    by_contra hlt
    have hlt := Nat.lt_of_not_le hlt
    have habove := hw.needed vs hv.first hlt
    obtain rfl := hv.met.resolve_left (UInt64.not_le.2 habove)
    exact absurd hw.first.length_le (Nat.not_le.2 hlt)
  have hlength := Nat.le_antisymm (hle h h') (hle h' h)
  exact (List.prefix_of_prefix_length_le h'.first h.first hlength.le).eq_of_length hlength

/-- Some part in front is the shortest that is enough. -/
theorem exists_shortest (target used : UInt64) (queue : List Entry) :
    ∃ victims, Shortest target used queue victims := by
  induction queue generalizing used with
  | nil => exact ⟨[], .nil⟩
  | cons e queue ih =>
    rcases UInt64.le_or_lt used target with hle | hlt
    · exact ⟨[], .none_of_le hle⟩
    · obtain ⟨victims, hs⟩ := ih (usedWithout used [e])
      exact ⟨e :: victims, hs.cons hlt⟩

/-- What goes of one queue followed by another: some of the first, and some of the second if all of
the first goes. -/
theorem exists_append (h : Shortest target used (queue ++ queue') victims) :
    ∃ vs ws, victims = vs ++ ws ∧ vs <+: queue ∧ ws <+: queue' ∧ (ws ≠ [] → vs = queue) := by
  rcases Nat.le_or_ge victims.length queue.length with hle | hge
  · have hfirst := List.prefix_of_prefix_length_le h.first (List.prefix_append ..) hle
    exact ⟨victims, [], (List.append_nil _).symm, hfirst, List.nil_prefix, fun hne => absurd rfl hne⟩
  · obtain ⟨ws, rfl⟩ := List.prefix_of_prefix_length_le (List.prefix_append ..) h.first hge
    exact ⟨queue, ws, rfl, List.prefix_rfl, (List.prefix_append_right_inj _).1 h.first, fun _ => rfl⟩

end Shortest

/-! ### Queues in the order of a key -/

/-- The entries that a pass may take. -/
def exposed (protect : Option TileKey) (es : List Entry) : List Entry :=
  es.filter fun e => some e.key ≠ protect

theorem mem_exposed : e ∈ exposed protect es ↔ e ∈ es ∧ some e.key ≠ protect := by
  rw [exposed, List.mem_filter, decide_eq_true_iff]

theorem exposed_perm (protect : Option TileKey) (h : es.Perm fs) :
    (exposed protect es).Perm (exposed protect fs) := h.filter _

theorem exposed_eq_nil (h : ∀ e ∈ es, some e.key = protect) : exposed protect es = [] :=
  List.filter_eq_nil_iff.2 fun e he => by simpa using h e he

theorem exposed_cons (es : List Entry) (h : some e.key ≠ protect) :
    exposed protect (e :: es) = e :: exposed protect es := List.filter_cons_of_pos (by simpa using h)

/-- When some are gone, the others that may go may still go. -/
theorem exposed_left (protect : Option TileKey) (hd : es.Nodup) (hp : es.Perm (victims ++ fs)) :
    ((exposed protect es).filter (· ∉ victims)).Perm (exposed protect fs) := by
  have hdisjoint := (List.nodup_append.1 (hp.nodup_iff.1 hd)).2.2
  have hgone : victims.filter (· ∉ victims) = [] :=
    List.filter_eq_nil_iff.2 fun e he => by simpa using he
  have hleft : fs.filter (· ∉ victims) = fs :=
    List.filter_eq_self.2 fun f hf => by simpa using fun he => hdisjoint f he f hf rfl
  have hperm := exposed_perm protect (hp.filter (· ∉ victims))
  rw [List.filter_append, hgone, hleft, List.nil_append] at hperm
  rwa [exposed, List.filter_comm]

section InLine

variable {κ : Type} [Ord κ] {key : Entry → κ}

/-- The queue is made of these entries, in strictly increasing order of a key. -/
structure InLine (key : Entry → κ) (es queue : List Entry) : Prop where
  perm : queue.Perm es
  ordered : queue.Pairwise fun e f => compare (key e) (key f) = .lt

theorem InLine.of_perm (h : InLine key es queue) (hp : es.Perm fs) : InLine key fs queue :=
  ⟨h.perm.trans hp, h.ordered⟩

theorem InLine.congr {key' : Entry → κ} (h : InLine key es queue)
    (hkey : ∀ e ∈ es, key' e = key e) : InLine key' es queue := by
  refine ⟨h.perm, h.ordered.imp_of_mem fun he hf hlt => ?_⟩
  rwa [hkey _ (h.perm.mem_iff.1 he), hkey _ (h.perm.mem_iff.1 hf)]

/-- Where everything is protected, nothing is in line. -/
theorem InLine.eq_nil (h : InLine key (exposed protect es) queue)
    (hall : ∀ e ∈ es, some e.key = protect) : queue = [] := by
  have hperm := h.perm
  rw [exposed_eq_nil hall] at hperm
  exact List.perm_nil.1 hperm

variable [TransOrd κ]

/-- The entry with the least key stands in front. -/
theorem InLine.uncons (h : InLine key es queue) (hp : es.Perm (e :: fs))
    (hleast : ∀ f ∈ fs, (compare (key e) (key f)).isLE) :
    ∃ rest, queue = e :: rest ∧ InLine key fs rest := by
  have hperm : queue.Perm (e :: fs) := h.perm.trans hp
  cases queue with
  | nil => exact absurd hperm.length_eq.symm (Nat.succ_ne_zero _)
  | cons d rest =>
    obtain ⟨hd, hrest⟩ := List.pairwise_cons.1 h.ordered
    have hfront : d = e := by
      by_contra hne
      have he : e ∈ rest := (List.mem_cons.1 (hperm.mem_iff.2 List.mem_cons_self)).resolve_left
        (Ne.symm hne)
      have hmem : d ∈ fs := (List.mem_cons.1 (hperm.mem_iff.1 List.mem_cons_self)).resolve_left hne
      have hswap : compare (key e) (key d) = (compare (key d) (key e)).swap := OrientedCmp.eq_swap
      have hle := hleast d hmem
      rw [hswap, hd e he] at hle
      cases hle
    subst hfront
    exact ⟨rest, rfl, hperm.cons_inv, hrest⟩

/-- Entries whose keys are all different can be put in line. -/
theorem exists_inLine (hd : es.Nodup)
    (hkey : ∀ e ∈ es, ∀ f ∈ es, compare (key e) (key f) = .eq → e = f) :
    ∃ queue, InLine key es queue := by
  let le (e f : Entry) : Bool := (compare (key e) (key f)).isLE
  have hperm : (es.mergeSort le).Perm es := List.mergeSort_perm es le
  have hsorted : (es.mergeSort le).Pairwise fun e f => le e f = true := by
    refine List.pairwise_mergeSort (fun a b c (hab : Ordering.isLE _) hbc => ?_) (fun a b => ?_) es
    · exact TransCmp.isLE_trans hab hbc
    · have hswap : compare (key b) (key a) = (compare (key a) (key b)).swap := OrientedCmp.eq_swap
      simp only [hswap]
      cases compare (key a) (key b) <;> rfl
  refine ⟨_, hperm, (hsorted.and (hperm.nodup_iff.2 hd)).imp_of_mem ?_⟩
  intro e f he hf hlt
  obtain ⟨hle, hne⟩ := hlt
  rcases hc : compare (key e) (key f) with _ | _ | _
  · rfl
  · exact absurd (hkey e (hperm.mem_iff.1 he) f (hperm.mem_iff.1 hf) hc) hne
  · rw [show le e f = false by simp [le, hc]] at hle
    cases hle

omit [TransOrd κ] in
/-- What is taken from the front comes before what is left. -/
theorem InLine.before (h : InLine key es queue) (hv : victims <+: queue) (he : e ∈ victims)
    (hf : f ∈ es) (hleft : f ∉ victims) : compare (key e) (key f) = .lt := by
  obtain ⟨rest, rfl⟩ := hv
  have hf := (List.mem_append.1 (h.perm.mem_iff.2 hf)).resolve_left hleft
  exact (List.pairwise_append.1 h.ordered).2.2 e he f hf

end InLine

/-! ### One victim -/

section Vault

variable {σ : Type} [Shelved σ] {v v' : Vault σ} {κ : Type} [Ord κ] [TransOrd κ] {key : Entry → κ}

theorem Vault.Becomes.memoryUsed_drop (hv : v.Sound) (he : v.tiles e.key = some e)
    (hb : v.Becomes (v.tiles.drop e.key) v') :
    v'.ledger.memoryUsed = usedWithout v.ledger.memoryUsed [e] :=
  hv.balanced.usedWithout hb.sound.balanced (hb.perm_drop hv he)

/-- An entry goes that has the least key of all that may go, while more is in use than the target. It
is the one in front, and what goes after it is in line behind it. -/
theorem Vault.Becomes.take_front (hv : v.Sound) (ht : target < v.ledger.memoryUsed)
    (he : v.tiles e.key = some e) (hp : some e.key ≠ protect)
    (hb : v.Becomes (v.tiles.drop e.key) v') (h : InLine key (exposed protect v.entries) queue)
    (hleast : ∀ f ∈ v.entries, some f.key ≠ protect → (compare (key e) (key f)).isLE) :
    ∃ rest, InLine key (exposed protect v'.entries) rest ∧
      ∀ {es}, Shortest target v'.ledger.memoryUsed rest es →
        Shortest target v.ledger.memoryUsed queue (e :: es) := by
  have hperm : v.entries.Perm (e :: v'.entries) := hb.perm_drop hv he
  have hexposed : (exposed protect v.entries).Perm (e :: exposed protect v'.entries) := by
    rw [← exposed_cons v'.entries hp]
    exact exposed_perm protect hperm
  obtain ⟨rest, rfl, hrest⟩ := h.uncons hexposed fun f hf => by
    obtain ⟨hmem, hpf⟩ := mem_exposed.1 hf
    exact hleast f (hperm.mem_iff.2 (List.mem_cons_of_mem e hmem)) hpf
  refine ⟨rest, hrest, fun hes => ?_⟩
  rw [hb.memoryUsed_drop hv he] at hes
  exact hes.cons ht

end Vault

end TileStore
