import TileStore.Proofs.Events
import Mathlib.Logic.Function.Basic

/-!
# Replaying events

Whoever hears all events can keep a record of which entry is bound to each key, knowing entries by
their numbers only. `replay` keeps this record, and gives up at the first event that is not legal: a
write that says it adds binds a free key, one that says it updates rebinds a bound one, and only the
entry that is bound to a key goes. A story can be replayed, and leads to the numbers of what is found
in the end: `Tiles.Story.replay`.

If every entry is written once, an entry that was bound and is not any more is never bound again. So
it goes once at most, and not at all if it was replaced: `nodup_gone_of_replay`,
`replaced_of_replay`.
-/

namespace TileStore

variable {xs ys before after : List Event} {x : Event} {e : Entry} {n : Nat} {k : TileKey}

/-- The number of the entry that is bound to each key. -/
abbrev Bindings := TileKey → Option Nat

namespace Bindings

/-- The bindings after an event, if it is legal. -/
def apply (b : Bindings) (x : Event) : Option Bindings :=
  match x.2 with
  | .added =>
    if b x.1.key = none then some (Function.update b x.1.key (some x.1.seq)) else none
  | .updated =>
    if b x.1.key = none then none else some (Function.update b x.1.key (some x.1.seq))
  | .removed | .evicted =>
    if b x.1.key = some x.1.seq then some (Function.update b x.1.key none) else none

/-- No key is bound. -/
def empty : Bindings := fun _ => none

/-- Replay events on bindings, as long as they are legal. -/
def replay (b : Bindings) (xs : List Event) : Option Bindings := xs.foldlM apply b

variable {b b' : Bindings} {past : List Nat}

/-- A legal event binds its key to the entry that it writes, or frees the key from the entry that
goes. -/
theorem eq_of_apply (h : b.apply x = some b') :
    (x.2.isWrite = true ∧ b' = Function.update b x.1.key (some x.1.seq)) ∨
    (x.2.isWrite = false ∧ b x.1.key = some x.1.seq ∧ b' = Function.update b x.1.key none) := by
  obtain ⟨e, a⟩ := x
  cases a <;> simp only [apply] at h <;> split at h <;> cases h
  · exact .inl ⟨rfl, rfl⟩
  · exact .inl ⟨rfl, rfl⟩
  · next hb => exact .inr ⟨rfl, hb, rfl⟩
  · next hb => exact .inr ⟨rfl, hb, rfl⟩

/-- An update finds something to replace. -/
theorem bound_of_updated (h : b.apply (e, .updated) = some b') : ∃ n, b e.key = some n := by
  rcases hk : b e.key with _ | n
  · simp [apply, hk] at h
  · exact ⟨n, rfl⟩

theorem replay_cons (b : Bindings) (x : Event) (xs : List Event) :
    b.replay (x :: xs) = (b.apply x).bind (·.replay xs) := List.foldlM_cons

theorem replay_append (b : Bindings) (xs ys : List Event) :
    b.replay (xs ++ ys) = (b.replay xs).bind (·.replay ys) := List.foldlM_append

/-! ### What has been written -/

/-- The numbers of the entries that were written, in order. -/
def written (xs : List Event) : List Nat := (writtenIn xs).map (·.seq)

/-- The numbers of the entries that went, in order. -/
def gone (xs : List Event) : List Nat := (xs.filter (!·.2.isWrite)).map (·.1.seq)

theorem written_append (xs ys : List Event) : written (xs ++ ys) = written xs ++ written ys := by
  simp [written]

theorem written_cons (x : Event) (xs : List Event) :
    written (x :: xs) = (if x.2.isWrite then [x.1.seq] else []) ++ written xs := by
  rw [written, writtenIn_cons]
  split <;> rfl

theorem gone_append (xs ys : List Event) : gone (xs ++ ys) = gone xs ++ gone ys := by
  simp [gone]

theorem gone_cons (x : Event) (xs : List Event) :
    gone (x :: xs) = (if x.2.isWrite then [] else [x.1.seq]) ++ gone xs := by
  rw [gone, List.filter_cons]
  cases x.2.isWrite <;> rfl

/-- No entry is bound to two keys, and those bound have been written. -/
structure Known (b : Bindings) (past : List Nat) : Prop where
  inj : ∀ {j k n}, b j = some n → b k = some n → j = k
  mem : ∀ {k n}, b k = some n → n ∈ past

theorem known_empty : empty.Known [] := ⟨nofun, nofun⟩

/-- An entry that frees its key is bound to no key, and neither is one that is replaced. -/
theorem Known.unbound {m : Option Nat} (h : b.Known past) (hk : b k = some n) (hm : m ≠ some n)
    (j : TileKey) : Function.update b k m j ≠ some n := by
  by_cases hj : j = k
  · rw [hj, Function.update_self]
    exact hm
  · rw [Function.update_of_ne hj]
    exact fun hbj => hj (h.inj hbj hk)

theorem Known.apply (h : b.Known past) (hx : b.apply x = some b')
    (hnew : x.2.isWrite = true → x.1.seq ∉ past) :
    b'.Known (past ++ if x.2.isWrite then [x.1.seq] else []) := by
  rcases eq_of_apply hx with ⟨hw, rfl⟩ | ⟨hw, -, rfl⟩
  · have hother : ∀ {j m}, j ≠ x.1.key → Function.update b x.1.key (some x.1.seq) j = some m →
        b j = some m ∧ m ≠ x.1.seq := by
      intro j m hj hm
      rw [Function.update_of_ne hj] at hm
      exact ⟨hm, fun e => hnew hw (e ▸ h.mem hm)⟩
    rw [if_pos hw]
    constructor
    · intro j k m hj hk
      by_cases hjx : j = x.1.key <;> by_cases hkx : k = x.1.key
      · rw [hjx, hkx]
      · rw [hjx, Function.update_self] at hj
        exact absurd (Option.some.inj hj).symm (hother hkx hk).2
      · rw [hkx, Function.update_self] at hk
        exact absurd (Option.some.inj hk).symm (hother hjx hj).2
      · exact h.inj (hother hjx hj).1 (hother hkx hk).1
    · intro k m hk
      by_cases hkx : k = x.1.key
      · rw [hkx, Function.update_self] at hk
        simp [Option.some.inj hk]
      · exact List.mem_append_left _ (h.mem (hother hkx hk).1)
  · have hleft : ∀ {j m}, Function.update b x.1.key none j = some m → b j = some m := by
      intro j m hj
      by_cases hjx : j = x.1.key
      · rw [hjx, Function.update_self] at hj
        cases hj
      · rwa [Function.update_of_ne hjx] at hj
    rw [if_neg (by simp [hw]), List.append_nil]
    exact ⟨fun hj hk => h.inj (hleft hj) (hleft hk), fun hk => h.mem (hleft hk)⟩

/-- While every entry is written once, bindings stay known. -/
theorem Known.replay (h : b.Known past) (hx : b.replay xs = some b')
    (hd : (past ++ written xs).Nodup) : b'.Known (past ++ written xs) := by
  induction xs generalizing b past with
  | nil =>
    cases hx
    simpa [written] using h
  | cons x xs ih =>
    rw [replay_cons, Option.bind_eq_some_iff] at hx
    obtain ⟨b₁, hx, hxs⟩ := hx
    rw [written_cons, ← List.append_assoc] at hd ⊢
    refine ih (h.apply hx fun hw hmem => ?_) hxs hd
    rw [if_pos hw] at hd
    exact (List.nodup_append.1 (List.nodup_append.1 hd).1).2.2 _ hmem _
      (List.mem_singleton_self _) rfl

/-- What is not bound and not written again stays unbound, and does not go. -/
theorem unbound_of_replay (hn : ∀ k, b k ≠ some n) (hw : n ∉ written xs)
    (hx : b.replay xs = some b') : (∀ k, b' k ≠ some n) ∧ n ∉ gone xs := by
  induction xs generalizing b with
  | nil =>
    cases hx
    exact ⟨hn, List.not_mem_nil⟩
  | cons x xs ih =>
    rw [replay_cons, Option.bind_eq_some_iff] at hx
    obtain ⟨b₁, hx, hxs⟩ := hx
    rw [written_cons, List.mem_append, not_or] at hw
    have hstep : (∀ k, b₁ k ≠ some n) ∧ n ∉ (if x.2.isWrite then [] else [x.1.seq]) := by
      rcases eq_of_apply hx with ⟨hwrite, rfl⟩ | ⟨hwrite, hgone, rfl⟩
      · rw [if_pos hwrite, List.mem_singleton] at hw
        rw [if_pos hwrite]
        refine ⟨fun k => ?_, List.not_mem_nil⟩
        by_cases hk : k = x.1.key
        · rw [hk, Function.update_self]
          exact fun e => hw.1 (Option.some.inj e).symm
        · rw [Function.update_of_ne hk]
          exact hn k
      · rw [if_neg (by simp [hwrite]), List.mem_singleton]
        refine ⟨fun k => ?_, fun e => hn x.1.key (e ▸ hgone)⟩
        by_cases hk : k = x.1.key
        · rw [hk, Function.update_self]
          exact Option.some_ne_none n |>.symm
        · rw [Function.update_of_ne hk]
          exact hn k
    obtain ⟨hleft, hgone⟩ := ih hstep.1 hw.2 hxs
    rw [gone_cons, List.mem_append, not_or]
    exact ⟨hleft, hstep.2, hgone⟩

/-- An entry goes once at most. -/
theorem nodup_gone_of_replay (h : b.Known past) (hd : (past ++ written xs).Nodup)
    (hx : b.replay xs = some b') : (gone xs).Nodup := by
  induction xs generalizing b past with
  | nil => exact .nil
  | cons x xs ih =>
    rw [replay_cons, Option.bind_eq_some_iff] at hx
    obtain ⟨b₁, hx, hxs⟩ := hx
    rw [written_cons, ← List.append_assoc] at hd
    have hnew : x.2.isWrite = true → x.1.seq ∉ past := by
      intro hw hmem
      rw [if_pos hw] at hd
      exact (List.nodup_append.1 (List.nodup_append.1 hd).1).2.2 _ hmem _
        (List.mem_singleton_self _) rfl
    have hrest := ih (h.apply hx hnew) hd hxs
    rw [gone_cons]
    rcases eq_of_apply hx with ⟨hw, rfl⟩ | ⟨hw, hgone, rfl⟩
    · rwa [if_pos hw]
    · rw [if_neg (by simp [hw])]
      have hwritten : x.1.seq ∉ written xs := fun hmem =>
        (List.nodup_append.1 hd).2.2 _ (List.mem_append_left _ (h.mem hgone)) _ hmem rfl
      exact List.nodup_cons.2
        ⟨(unbound_of_replay (h.unbound hgone (by simp)) hwritten hxs).2, hrest⟩

end Bindings

/-- Replay events from the start, as long as they are legal. -/
def replay (xs : List Event) : Option Bindings := Bindings.empty.replay xs

open Bindings (written gone)

/-- An entry that is replaced has not gone, and never goes. -/
theorem replaced_of_replay {b b' : Bindings} {a : Action} (ha : a.isWrite = true)
    (hd : (written (before ++ (e, a) :: after)).Nodup) (hb : replay before = some b)
    (hr : replay (before ++ (e, a) :: after) = some b') (hn : b e.key = some n) :
    n ∉ gone (before ++ (e, a) :: after) := by
  rw [Bindings.written_append, Bindings.written_cons, if_pos ha] at hd
  rw [replay, Bindings.replay_append, ← replay, hb, Option.bind_some, Bindings.replay_cons,
    Option.bind_eq_some_iff] at hr
  obtain ⟨b₁, hx, hafter⟩ := hr
  obtain ⟨hdbefore, hdafter, hapart⟩ := List.nodup_append.1 hd
  have hknown : b.Known (written before) := by
    simpa using Bindings.known_empty.replay hb (by simpa using hdbefore)
  have hmem := hknown.mem hn
  rw [Bindings.gone_append, Bindings.gone_cons, if_pos ha, List.nil_append, List.mem_append, not_or]
  constructor
  · -- had it gone before, it would not be bound now
    intro hgone
    obtain ⟨x, hx, rfl⟩ := List.mem_map.1 hgone
    obtain ⟨hx, hfinal⟩ := List.mem_filter.1 hx
    obtain ⟨p, q, rfl⟩ := List.append_of_mem hx
    rw [replay, Bindings.replay_append, Option.bind_eq_some_iff] at hb
    obtain ⟨b₀, hp, hq⟩ := hb
    rw [Bindings.replay_cons, Option.bind_eq_some_iff] at hq
    obtain ⟨b₂, hxb, hq⟩ := hq
    have hfinal : x.2.isWrite = false := by simpa using hfinal
    rw [Bindings.written_append, Bindings.written_cons, if_neg (by simp [hfinal]),
      List.nil_append] at hdbefore
    have hknown₀ : b₀.Known (written p) := by
      simpa using Bindings.known_empty.replay hp (by simpa using (List.nodup_append.1 hdbefore).1)
    rcases Bindings.eq_of_apply hxb with ⟨hw, -⟩ | ⟨-, hbound, rfl⟩
    · rw [hfinal] at hw
      cases hw
    · have hq' : x.1.seq ∉ written q := fun hm =>
        (List.nodup_append.1 hdbefore).2.2 _ (hknown₀.mem hbound) _ hm rfl
      exact (Bindings.unbound_of_replay (hknown₀.unbound hbound (by simp)) hq' hq).1 _ hn
  · rcases Bindings.eq_of_apply hx with ⟨-, rfl⟩ | ⟨hw, -⟩
    · have hne : some e.seq ≠ some n := fun he =>
        hapart n hmem e.seq List.mem_cons_self (Option.some.inj he).symm
      have hwritten : n ∉ written after := fun hm =>
        hapart n hmem n (List.mem_cons_of_mem _ hm) rfl
      exact (Bindings.unbound_of_replay (hknown.unbound hn hne) hwritten hafter).2
    · rw [ha] at hw
      cases hw

/-! ### Stories -/

/-- The numbers of what is found under each key. -/
def Tiles.numbers (g : Tiles) : Bindings := fun k => (g k).map (·.seq)

theorem Tiles.numbers_put (g : Tiles) (e : Entry) :
    (g.put e).numbers = Function.update g.numbers e.key (some e.seq) := by
  funext k
  unfold numbers put
  by_cases hk : k = e.key
  · rw [hk, Function.update_self, if_pos rfl]
    rfl
  · rw [Function.update_of_ne hk, if_neg hk]

theorem Tiles.numbers_drop (g : Tiles) (k : TileKey) :
    (g.drop k).numbers = Function.update g.numbers k none := by
  funext j
  unfold numbers drop
  by_cases hj : j = k
  · rw [hj, Function.update_self, if_pos rfl]
    rfl
  · rw [Function.update_of_ne hj, if_neg hj]

theorem Tiles.Happens.apply {g g' : Tiles} (h : g.Happens x g') :
    g.numbers.apply x = some g'.numbers := by
  cases h with
  | write e =>
    rw [numbers_put]
    rcases hk : g e.key with _ | f <;> simp [Bindings.apply, numbers, Action.ofWrite, hk]
  | @gone e a ha he =>
    rw [numbers_drop]
    cases a with
    | added | updated => cases ha
    | removed | evicted => simp [Bindings.apply, numbers, he]

/-- A story can be replayed. -/
theorem Tiles.Story.replay {g g' : Tiles} (h : g.Story xs g') :
    g.numbers.replay xs = some g'.numbers := by
  induction h with
  | nil => rfl
  | cons hx _ ih =>
    rw [Bindings.replay_cons, hx.apply, Option.bind_some]
    exact ih

end TileStore
