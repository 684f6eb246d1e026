import TileStore.Proofs.Mutation
import TileStore.Proofs.Recency

/-!
# Recency lists refine plain lists

A plain list is the pairs of a node and its value, least recently used first, and no links. Whatever
is done to a recency list, one operation after the other from no values on, can be done to a plain
list with the same answers (`Plain.Step`), as long as the nodes that are used, replaced or removed
have a value. What the arena then is follows from the plain list (`Shows`): both chains, the ends, the
values, and the number of nodes, which is how many values there were at most at a time since the nodes
were last dropped.

`Backs` is what carries the induction; a step keeps it (`Backs.step`), so a run does (`Backs.run`).
-/

namespace TileStore.Recency

open Mutation

variable {α : Type} {l l' : Recency α} {i j : Nat} {is spare : List Nat}

/-! ### Operations and their answers -/

/-- What can be done to a recency list. -/
inductive Op (α : Type) where
  | push (v : α)
  | replace (i : Nat) (v : α)
  | moveToFront (i : Nat)
  | remove (i : Nat)
  | read (i : Nat)
  /-- Give a node another value, if it has one, which is no use of it. -/
  | assign (i : Nat) (v : α)
  /-- Drop the values and the nodes. -/
  | clear

/-- What an operation answers. -/
inductive Answer (α : Type) where
  | done
  | node (i : Nat)
  | value (found : Option α)
deriving DecidableEq

namespace Op

/-- Do it to a recency list. -/
def perform : Op α → Mutation (Recency α) (Answer α)
  | .push v => do
    let (i, l) := (← get).push v
    set l
    return .node i
  | .replace i v => do
    let old ← Recency.replace i v
    return .value old
  | .moveToFront i => do
    Recency.moveToFront i
    return .done
  | .remove i => do
    let v ← Recency.remove i
    return .value v
  | .read i => do
    let l ← get
    return .value (l.get? i)
  | .assign i v => do
    let l ← get
    set (l.assign i v)
    return .value (l.get? i)
  | .clear => do
    set ({} : Recency α)
    return .done

/-- A node that is used, replaced or removed has a value. -/
def Fits : Op α → Recency α → Prop
  | .replace i _, l | .moveToFront i, l | .remove i, l => (l.get? i).isSome
  | _, _ => True

instance (op : Op α) (l : Recency α) : Decidable (op.Fits l) := by
  cases op <;> unfold Fits <;> infer_instance

end Op

/-! ### Plain lists -/

/-- The nodes that have a value, with it, least recently used first. -/
structure Plain (α : Type) where
  order : List (Nat × α) := []
  /-- The largest number of values there were at a time since the nodes were last dropped. -/
  peak : Nat := 0

namespace Plain

/-- The nodes that have a value. -/
def nodes (s : Plain α) : List Nat := s.order.map (·.1)

/-- Go on with this order. -/
def next (s : Plain α) (order : List (Nat × α)) : Plain α := ⟨order, max s.peak order.length⟩

/-- The pairs without that of a node. -/
def without (s : Plain α) (i : Nat) : List (Nat × α) := s.order.filter (·.1 ≠ i)

/-- What an operation does to a plain list, with its answer. Only in the node that a new value gets
there is a choice. -/
inductive Step : Op α → Plain α → Answer α → Plain α → Prop where
  | push {s : Plain α} {i : Nat} (v : α) : i ∉ s.nodes →
    Step (.push v) s (.node i) (s.next (s.order ++ [(i, v)]))
  | replace {s : Plain α} {i : Nat} {old : α} (v : α) : (i, old) ∈ s.order →
    Step (.replace i v) s (.value (some old)) (s.next (s.without i ++ [(i, v)]))
  | moveToFront {s : Plain α} {i : Nat} {v : α} : (i, v) ∈ s.order →
    Step (.moveToFront i) s .done (s.next (s.without i ++ [(i, v)]))
  | remove {s : Plain α} {i : Nat} {v : α} : (i, v) ∈ s.order →
    Step (.remove i) s (.value (some v)) (s.next (s.without i))
  | read {s : Plain α} {i : Nat} {found : Option α} : (∀ v, found = some v ↔ (i, v) ∈ s.order) →
    Step (.read i) s (.value found) s
  | assign {s : Plain α} {i : Nat} {found : Option α} (v : α) :
    (∀ w, found = some w ↔ (i, w) ∈ s.order) →
    Step (.assign i v) s (.value found) (s.next (s.order.map fun p => if p.1 = i then (i, v) else p))
  | clear (s : Plain α) : Step .clear s .done {}

end Plain

/-! ### What the arena is -/

/-- The node used next after a node. -/
def newer? (l : Recency α) (i : Nat) : Option Nat := (l.nodes[i]?).bind (·.prev)

/-- The node used last before a node, or the empty node that follows an empty one. -/
def older? (l : Recency α) (i : Nat) : Option Nat := (l.nodes[i]?).bind (·.next)

/-- The nodes of the chain of empty nodes, from a node on. It looks at no values. -/
def chain (l : Recency α) : Nat → Option Nat → List Nat
  | fuel + 1, some i => i :: chain l fuel (l.older? i)
  | _, _ => []

/-- The arena of a recency list is as a plain list demands. -/
structure Shows (l : Recency α) (s : Plain α) : Prop where
  /-- From the least recently used node on come the values in their order, and then nothing. -/
  order : ∀ fuel, l.slots ≤ fuel → l.follow fuel l.tail = s.order
  value : ∀ i v, l.get? i = some v ↔ (i, v) ∈ s.order
  /-- No node comes twice. -/
  nodup : s.nodes.Nodup
  newer : ∀ i ∈ s.nodes, ∀ j, l.newer? i = some j → j ∈ s.nodes ∧ l.older? j = some i
  older : ∀ i ∈ s.nodes, ∀ j, l.older? i = some j → j ∈ s.nodes ∧ l.newer? j = some i
  head : ∀ i, l.head = some i ↔ i ∈ s.nodes ∧ l.newer? i = none
  tail : ∀ i, l.tail = some i ↔ i ∈ s.nodes ∧ l.older? i = none
  /-- The chain of empty nodes ends, too, and has each of them once. -/
  chain : ∀ fuel, l.slots ≤ fuel → (l.chain fuel l.free).Nodup ∧
    ∀ i, i ∈ l.chain fuel l.free ↔ i < l.slots ∧ i ∉ s.nodes
  size : l.size = s.order.length
  slots : l.slots = s.peak

theorem Spare.chain_eq {first : Option Nat} (h : l.Spare first is) {fuel : Nat}
    (hf : is.length ≤ fuel) : l.chain fuel first = is := by
  induction is generalizing first fuel with
  | nil =>
    obtain rfl := h
    cases fuel <;> rfl
  | cons i is ih =>
    obtain ⟨rfl, p, n, hn, hs⟩ := h
    obtain _ | fuel := fuel
    · simp at hf
    · have holder : l.older? i = n := by simp [older?, hn]
      rw [chain, holder, ih hs (by simpa using hf)]

namespace Holds

theorem slots_eq (h : l.Holds is spare) : l.slots = is.length + spare.length := by
  simpa using h.cover.length_eq.symm

theorem length_toList (h : l.Holds is spare) : l.toList.length = is.length := by
  rw [← h.map_fst_toList, List.length_map]

theorem newer?_eq {as bs : List Nat} (h : l.Holds (as ++ i :: bs) spare) :
    l.newer? i = bs.head? := by
  obtain ⟨v, hn⟩ := h.node
  simp [newer?, hn]

theorem older?_eq {as bs : List Nat} (h : l.Holds (as ++ i :: bs) spare) :
    l.older? i = as.getLast? := by
  obtain ⟨v, hn⟩ := h.node
  simp [older?, hn]

theorem older?_of_newer? (h : l.Holds is spare) (hi : i ∈ is) (hj : l.newer? i = some j) :
    j ∈ is ∧ l.older? j = some i := by
  obtain ⟨as, bs, rfl⟩ := List.append_of_mem hi
  obtain ⟨bs, rfl⟩ := List.head?_eq_some_iff.1 (h.newer?_eq.symm.trans hj)
  rw [List.append_cons] at h
  exact ⟨by simp, h.older?_eq.trans (by simp)⟩

theorem newer?_of_older? (h : l.Holds is spare) (hi : i ∈ is) (hj : l.older? i = some j) :
    j ∈ is ∧ l.newer? j = some i := by
  obtain ⟨as, bs, rfl⟩ := List.append_of_mem hi
  obtain ⟨as, rfl⟩ := List.getLast?_eq_some_iff.1 (h.older?_eq.symm.trans hj)
  rw [List.append_assoc] at h
  exact ⟨by simp, h.newer?_eq.trans (by simp)⟩

theorem head_iff (h : l.Holds is spare) : l.head = some i ↔ i ∈ is ∧ l.newer? i = none := by
  rw [h.head]
  refine ⟨fun hi => ?_, fun ⟨hi, hn⟩ => ?_⟩
  · obtain ⟨as, rfl⟩ := List.getLast?_eq_some_iff.1 hi
    exact ⟨by simp, h.newer?_eq⟩
  · obtain ⟨as, bs, rfl⟩ := List.append_of_mem hi
    rw [h.newer?_eq, List.head?_eq_none_iff] at hn
    simp [hn]

theorem tail_iff (h : l.Holds is spare) : l.tail = some i ↔ i ∈ is ∧ l.older? i = none := by
  rw [h.tail]
  refine ⟨fun hi => ?_, fun ⟨hi, hn⟩ => ?_⟩
  · obtain ⟨bs, rfl⟩ := List.head?_eq_some_iff.1 hi
    rw [← List.nil_append (i :: bs)] at h
    exact ⟨by simp, h.older?_eq⟩
  · obtain ⟨as, bs, rfl⟩ := List.append_of_mem hi
    rw [h.older?_eq, List.getLast?_eq_none_iff] at hn
    simp [hn]

theorem mem_spare (h : l.Holds is spare) : i ∈ spare ↔ i < l.slots ∧ i ∉ is := by
  rw [← List.mem_range, ← h.cover.mem_iff, List.mem_append]
  refine ⟨fun hi => ⟨.inr hi, fun hm => h.not_mem_spare hm hi⟩, ?_⟩
  rintro ⟨hi | hi, hn⟩
  · exact absurd hi hn
  · exact hi

/-- The sequence after a value was changed in its place. -/
theorem toList_assign (h : l.Holds is spare) (i : Nat) (v : α) :
    (l.assign i v).toList = l.toList.map fun p => if p.1 = i then (i, v) else p := by
  obtain ⟨h', hget⟩ := h.assign i v
  rw [h'.toList, h.toList, List.map_filterMap]
  refine List.filterMap_congr fun j _ => ?_
  rw [hget]
  by_cases hj : j = i
  · cases hv : l.get? j <;> simp [hj]
  · cases hv : l.get? j <;> simp [hj]

end Holds

/-! ### Nodes are only added when all have a value -/

theorem Holds.slots_push (h : l.Holds is spare) (v : α) :
    (l.push v).2.slots = max l.slots (l.toList.length + 1) := by
  obtain ⟨-, h', -⟩ := h.push v
  rw [h'.slots_eq, h.slots_eq, h.length_toList, List.length_append, List.length_tail,
    List.length_singleton]
  omega

theorem slots_moveToFront (i : Nat) (l : Recency α) :
    (moveToFront i).Meets l False fun _ l' => l'.slots = l.slots := by
  unfold moveToFront
  simp only [meets_bind, meets_get]
  split
  · rfl
  · split
    · simp
    · exact id

theorem slots_replace (i : Nat) (v : α) (l : Recency α) :
    (replace i v).Meets l False fun _ l' => l'.slots = l.slots := by
  unfold replace
  simp only [meets_bind, meets_get]
  split
  · exact id
  · simp only [meets_bind, meets_set]
    split
    · exact id
    · refine meets_bind.2 ((slots_moveToFront i _).imp fun _ l' hl' => ?_)
      exact hl'.trans (slots_edit l i _)

theorem slots_remove (i : Nat) (l : Recency α) :
    (remove i).Meets l False fun _ l' => l'.slots = l.slots := by
  unfold remove
  simp only [meets_bind, meets_get]
  split
  · exact id
  · split
    · exact id
    · exact (slots_edit ((l.edit i _).unlink i) i _).trans (by rw [slots_unlink, slots_edit])

namespace WellLinked

theorem moveToFront {v : α} (h : l.WellLinked) (hi : l.get? i = some v) :
    ∃ l', (moveToFront i).result l = (.ok (), l') ∧ l'.WellLinked ∧
      l'.toList = l.toList.filter (·.1 ≠ i) ++ [(i, v)] := by
  obtain ⟨is, spare, h⟩ := h
  obtain ⟨l', hr, h', hget⟩ := h.moveToFront (h.mem_of_get? hi)
  refine ⟨l', hr, ⟨_, _, h'⟩, ?_⟩
  rw [erase_eq_filter_ne h.nodup_left] at h'
  exact h.toList_concat h' ((hget i).trans hi) fun j _ => hget j

theorem assign (h : l.WellLinked) (i : Nat) (v : α) :
    (l.assign i v).WellLinked ∧
      (l.assign i v).toList = l.toList.map fun p => if p.1 = i then (i, v) else p :=
  let ⟨_, _, h⟩ := h
  ⟨⟨_, _, (h.assign i v).1⟩, h.toList_assign i v⟩

theorem slots_push (h : l.WellLinked) (v : α) :
    (l.push v).2.slots = max l.slots (l.toList.length + 1) :=
  let ⟨_, _, h⟩ := h
  h.slots_push v

theorem length_toList_le (h : l.WellLinked) : l.toList.length ≤ l.slots := by
  obtain ⟨is, spare, h⟩ := h
  rw [h.length_toList]
  exact h.length_le

end WellLinked

/-! ### Each operation -/

/-- The recency list has the values of the plain list in their order, and as many nodes as there were
values at a time. -/
structure Backs (l : Recency α) (s : Plain α) : Prop where
  linked : l.WellLinked
  toList : l.toList = s.order
  slots : l.slots = s.peak

namespace Backs

variable {s : Plain α}

theorem empty : Backs ({} : Recency α) {} := ⟨.empty, rfl, rfl⟩

theorem get?_iff (h : l.Backs s) {v : α} : l.get? i = some v ↔ (i, v) ∈ s.order := by
  rw [← h.toList]
  exact h.linked.mem_toList.symm

/-- A value that moved, changed or left takes no new node. -/
theorem next (h : l.Backs s) {order : List (Nat × α)} (hl : l'.WellLinked)
    (horder : l'.toList = order) (hslots : l'.slots = l.slots) : l'.Backs (s.next order) := by
  refine ⟨hl, horder, ?_⟩
  have := hl.length_toList_le
  rw [hslots, h.slots, horder] at this
  rw [hslots, h.slots, Plain.next, Nat.max_eq_left this]

theorem push (h : l.Backs s) (v : α) :
    (l.push v).1 ∉ s.nodes ∧ (l.push v).2.Backs (s.next (s.order ++ [((l.push v).1, v)])) := by
  obtain ⟨hl, hnone, -, horder⟩ := h.linked.push v
  refine ⟨fun hi => ?_, hl, ?_, ?_⟩
  · obtain ⟨⟨_, w⟩, hw, rfl⟩ := List.mem_map.1 hi
    cases hnone.symm.trans (h.get?_iff.2 hw)
  · rw [horder, h.toList, Plain.next]
  · rw [h.linked.slots_push, h.toList, h.slots, Plain.next, List.length_append]
    rfl

/-- What is done to a recency list can be done to a plain list with the same answer. -/
theorem step (h : l.Backs s) (op : Op α) (hf : op.Fits l) :
    ∃ a l' s', op.perform.result l = (.ok a, l') ∧ Plain.Step op s a s' ∧ l'.Backs s' := by
  cases op with
  | push v =>
    obtain ⟨hi, h'⟩ := h.push v
    exact ⟨_, _, _, rfl, .push v hi, h'⟩
  | replace i v =>
    obtain ⟨old, hi⟩ := Option.isSome_iff_exists.1 hf
    obtain ⟨l', hr, hl, -, horder⟩ := h.linked.replace hi v
    refine ⟨.value (some old), l', _, ?_, .replace v (h.get?_iff.1 hi), h.next hl ?_ ?_⟩
    · rw [Op.perform, result_bind, hr]
      rfl
    · rw [horder, h.toList, Plain.without]
    · exact (slots_replace i v l).of_ok hr
  | moveToFront i =>
    obtain ⟨v, hi⟩ := Option.isSome_iff_exists.1 hf
    obtain ⟨l', hr, hl, horder⟩ := h.linked.moveToFront hi
    refine ⟨.done, l', _, ?_, .moveToFront (h.get?_iff.1 hi), h.next hl ?_ ?_⟩
    · rw [Op.perform, result_bind, hr]
      rfl
    · rw [horder, h.toList, Plain.without]
    · exact (slots_moveToFront i l).of_ok hr
  | remove i =>
    obtain ⟨v, hi⟩ := Option.isSome_iff_exists.1 hf
    obtain ⟨l', hr, hl, -, horder⟩ := h.linked.remove hi
    refine ⟨.value (some v), l', _, ?_, .remove (h.get?_iff.1 hi), h.next hl ?_ ?_⟩
    · rw [Op.perform, result_bind, hr]
      rfl
    · rw [horder, h.toList, Plain.without]
    · exact (slots_remove i l).of_ok hr
  | read i => exact ⟨_, _, _, rfl, .read fun v => h.get?_iff, h⟩
  | assign i v =>
    obtain ⟨hl, horder⟩ := h.linked.assign i v
    refine ⟨_, _, _, rfl, .assign v fun w => h.get?_iff, h.next hl ?_ (slots_edit l i _)⟩
    rw [horder, h.toList]
  | clear => exact ⟨_, _, _, rfl, .clear s, .empty⟩

/-- So can a run. -/
theorem run (h : l.Backs s) (ops : List (Op α)) (hf : Along Op.Fits Op.perform ops l) :
    ∃ as l' s', (ops.mapM Op.perform).result l = (.ok as, l') ∧ Series Plain.Step ops s as s' ∧
      l'.Backs s' := by
  induction ops generalizing l s with
  | nil => exact ⟨[], l, s, rfl, .nil s, h⟩
  | cons op ops ih =>
    obtain ⟨hop, hops⟩ := hf
    obtain ⟨a, l₁, s₁, hr, hstep, h₁⟩ := h.step op hop
    obtain ⟨as, l₂, s₂, hrs, hsteps, h₂⟩ := ih h₁ (hops a l₁ hr)
    refine ⟨a :: as, l₂, s₂, ?_, .cons hstep hsteps, h₂⟩
    simp only [List.mapM_cons, result_bind, hr, hrs, result_pure]

theorem shows (h : l.Backs s) : l.Shows s := by
  obtain ⟨is, spare, hl⟩ := h.linked
  obtain rfl : s.nodes = is := by rw [← hl.map_fst_toList, h.toList, Plain.nodes]
  have hlength : spare.length ≤ l.slots := by
    rw [hl.slots_eq]
    exact Nat.le_add_left _ _
  exact {
    order := fun fuel hf => by
      rw [← h.toList, hl.toList, hl.tail]
      exact hl.strand.follow_eq (hl.length_le.trans hf)
    value := fun i v => h.get?_iff
    nodup := hl.nodup_left
    newer := fun i hi j => hl.older?_of_newer? hi
    older := fun i hi j => hl.newer?_of_older? hi
    head := fun i => hl.head_iff
    tail := fun i => hl.tail_iff
    chain := fun fuel hf => by
      rw [hl.chain.chain_eq (hlength.trans hf)]
      exact ⟨(List.nodup_append.1 hl.nodup).2.1, fun i => hl.mem_spare⟩
    size := by rw [hl.size, ← hl.length_toList, h.toList]
    slots := h.slots }

end Backs

/-- **A recency list refines a plain list.** Whatever operations are done one after the other from no
values on, as long as the nodes that are used, replaced or removed have a value: none of them fails,
a plain list takes the same steps with the same answers, and the arena is as it demands. -/
theorem refines_plain_list (ops : List (Op α)) (hf : Along Op.Fits Op.perform ops {}) :
    ∃ as l s, (ops.mapM Op.perform).result {} = (.ok as, l) ∧ Series Plain.Step ops {} as s ∧
      l.Shows s :=
  let ⟨as, l, s, hr, hs, h⟩ := Backs.empty.run ops hf
  ⟨as, l, s, hr, hs, h.shows⟩

/-- Nodes in the middle and at the ends move, one is used again, and all are dropped once. -/
theorem refines_plain_list_reused :
    let ops : List (Op Nat) := [.push 5, .clear, .push 1, .push 2, .push 3, .moveToFront 1, .read 0,
      .remove 0, .push 4, .replace 2 6, .assign 1 7, .remove 2]
    Along Op.Fits Op.perform ops {} ∧
      ∃ as l s, (ops.mapM Op.perform).result {} = (.ok as, l) ∧ Series Plain.Step ops {} as s ∧
        l.Shows s :=
  ⟨by decide, refines_plain_list _ (by decide)⟩

end TileStore.Recency
