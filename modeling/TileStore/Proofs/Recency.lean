import TileStore.Recency
import Mathlib.Data.List.Nodup
import Mathlib.Data.List.Perm.Basic
import Mathlib.Data.List.Range

/-!
# What a recency list stands for

The nodes of a recency list form two chains in one arena: those with a value, linked both ways from
the least to the most recently used, and the empty ones, linked one way. `Holds` says which nodes are
in which chain and in what order; together they are all nodes of the arena, each once. Every operation
keeps such a pair of chains and says how it changes (`Holds.push`, `Holds.moveToFront`,
`Holds.replace`, `Holds.remove`), and `Holds.toList` reads the sequence off the first chain.
-/

namespace TileStore.Recency

variable {α : Type} {l l' : Recency α} {i j : Nat} {is spare : List Nat}

/-! ### Nodes -/

theorem nodes_edit (l : Recency α) (i j : Nat) (f : Node α → Node α) :
    (l.edit i f).nodes[j]? = if j = i then l.nodes[j]?.map f else l.nodes[j]? := by
  simp only [edit, Array.getElem?_modify, eq_comm]

@[simp] theorem slots_edit (l : Recency α) (i : Nat) (f : Node α → Node α) :
    (l.edit i f).slots = l.slots := by simp [edit, slots]

theorem get?_edit (l : Recency α) (i j : Nat) {f : Node α → Node α}
    (hf : ∀ n, (f n).value = n.value) : (l.edit i f).get? j = l.get? j := by
  unfold get?
  rw [nodes_edit]
  split
  · cases l.nodes[j]? <;> simp [hf]
  · rfl

theorem get?_eq_none_of_le (h : l.slots ≤ i) : l.get? i = none := by
  unfold get? slots at *
  rw [Array.getElem?_eq_none h]
  rfl

theorem nodes_linkFront (hi : l.head ≠ some i) (j : Nat) :
    (l.linkFront i).nodes[j]? =
      if j = i then l.nodes[j]?.map fun n => { n with prev := none, next := l.head }
      else if l.head = some j then l.nodes[j]?.map fun n => { n with prev := some i }
      else l.nodes[j]? := by
  unfold linkFront editAt
  cases hh : l.head with
  | none => simp [nodes_edit]
  | some h =>
    have hne : h ≠ i := fun e => hi (by rw [hh, e])
    simp only [nodes_edit, Option.some.injEq]
    by_cases hj : j = i
    · simp [hj, Ne.symm hne]
    · by_cases hk : j = h
      · simp [hk, hne]
      · simp [hj, hk, Ne.symm hk]

@[simp] theorem slots_linkFront (l : Recency α) (i : Nat) : (l.linkFront i).slots = l.slots := by
  unfold linkFront editAt
  cases l.head <;> simp [slots, edit]

@[simp] theorem get?_linkFront (l : Recency α) (i j : Nat) :
    (l.linkFront i).get? j = l.get? j := by
  unfold linkFront editAt
  cases l.head with
  | none => exact get?_edit l i j fun _ => rfl
  | some h =>
    refine (get?_edit (l.edit i fun n => { n with prev := none, next := some h }) h j ?_).trans ?_
    · exact fun _ => rfl
    · exact get?_edit l i j fun _ => rfl

theorem nodes_unlink {n : Node α} (hn : l.nodes[i]? = some n) (hp : n.prev ≠ some i)
    (hq : n.next ≠ some i) (hpq : ∀ p, n.prev = some p → n.next ≠ some p) (j : Nat) :
    (l.unlink i).nodes[j]? =
      if j = i then l.nodes[j]?.map fun n => { n with prev := none, next := none }
      else if n.prev = some j then l.nodes[j]?.map fun m => { m with next := n.next }
      else if n.next = some j then l.nodes[j]?.map fun m => { m with prev := n.prev }
      else l.nodes[j]? := by
  obtain ⟨v, p, q⟩ := n
  unfold unlink
  rw [hn]
  cases p <;> cases q <;> simp only [nodes_edit, Option.some.injEq, reduceCtorEq, if_false] at * <;>
    grind

@[simp] theorem slots_unlink (l : Recency α) (i : Nat) : (l.unlink i).slots = l.slots := by
  unfold unlink
  cases l.nodes[i]? with
  | none => rfl
  | some n => rcases n with ⟨v, _ | p, _ | q⟩ <;> simp [slots, edit]

@[simp] theorem free_unlink (l : Recency α) (i : Nat) : (l.unlink i).free = l.free := by
  unfold unlink
  cases l.nodes[i]? with
  | none => rfl
  | some n => rcases n with ⟨v, _ | p, _ | q⟩ <;> rfl

@[simp] theorem size_unlink (l : Recency α) (i : Nat) : (l.unlink i).size = l.size := by
  unfold unlink
  cases l.nodes[i]? with
  | none => rfl
  | some n => rcases n with ⟨v, _ | p, _ | q⟩ <;> rfl

@[simp] theorem get?_unlink (l : Recency α) (i j : Nat) : (l.unlink i).get? j = l.get? j := by
  unfold unlink
  cases l.nodes[i]? with
  | none => rfl
  | some n =>
    have edit_get (l : Recency α) (k : Nat) (p q : Node α → Option Nat) :
        (l.edit k fun m => { m with prev := p m, next := q m }).get? j = l.get? j :=
      get?_edit l k j fun _ => rfl
    rcases n with ⟨v, _ | p, _ | q⟩
    · exact edit_get _ i (fun _ => none) fun _ => none
    · exact (edit_get _ i (fun _ => none) fun _ => none).trans (edit_get _ q (fun _ => none) (·.next))
    · exact (edit_get _ i (fun _ => none) fun _ => none).trans (edit_get _ p (·.prev) fun _ => none)
    · exact (edit_get _ i (fun _ => none) fun _ => none).trans
        ((edit_get _ q (fun _ => some p) (·.next)).trans (edit_get _ p (·.prev) fun _ => some q))

/-! ### Strands -/

/-- The nodes `is` all have a value and are linked both ways in this order, the first of them to
`older` and the last to `newer`. -/
def Strand (l : Recency α) : Option Nat → List Nat → Option Nat → Prop
  | _, [], _ => True
  | older, i :: is, newer =>
    (∃ v, l.nodes[i]? = some ⟨some v, is.head?.or newer, older⟩) ∧ l.Strand (some i) is newer

theorem strand_append {o n : Option Nat} {is js : List Nat} :
    l.Strand o (is ++ js) n ↔
      l.Strand o is (js.head?.or n) ∧ l.Strand (is.getLast?.or o) js n := by
  induction is generalizing o with
  | nil => simp [Strand]
  | cons i is ih =>
    rw [List.cons_append, Strand, Strand, ih, List.head?_append, Option.or_assoc, and_assoc,
      List.getLast?_cons]
    cases is.getLast? <;> rfl

/-- A strand only depends on its own nodes. -/
theorem Strand.congr {o n : Option Nat} (h : l.Strand o is n)
    (hl : ∀ i ∈ is, l'.nodes[i]? = l.nodes[i]?) : l'.Strand o is n := by
  induction is generalizing o with
  | nil => trivial
  | cons i is ih =>
    refine ⟨?_, ih h.2 fun j hj => hl j (List.mem_cons_of_mem i hj)⟩
    rw [hl i List.mem_cons_self]
    exact h.1

/-- The end of a strand can be linked to another node. -/
theorem Strand.relinkLast {o n n' : Option Nat} (h : l.Strand o (is ++ [i]) n)
    (hi : l'.nodes[i]? = l.nodes[i]?.map fun m => { m with prev := n' })
    (hl : ∀ j ∈ is, l'.nodes[j]? = l.nodes[j]?) : l'.Strand o (is ++ [i]) n' := by
  obtain ⟨hs, ⟨v, hv⟩, -⟩ := strand_append.1 h
  refine strand_append.2 ⟨hs.congr hl, ⟨v, ?_⟩, trivial⟩
  rw [hi, hv]
  rfl

/-- So can its beginning. -/
theorem Strand.relinkFirst {o o' n : Option Nat} (h : l.Strand o (i :: is) n)
    (hi : l'.nodes[i]? = l.nodes[i]?.map fun m => { m with next := o' })
    (hl : ∀ j ∈ is, l'.nodes[j]? = l.nodes[j]?) : l'.Strand o' (i :: is) n := by
  obtain ⟨⟨v, hv⟩, hs⟩ := h
  refine ⟨⟨v, ?_⟩, hs.congr hl⟩
  rw [hi, hv]
  rfl

/-- A node put in front extends the strand. -/
theorem Strand.linkFront (h : l.Strand none is none) (hh : l.head = is.getLast?)
    (hd : is.Nodup) (hi : i ∉ is) (hv : (l.get? i).isSome) :
    (l.linkFront i).Strand none (is ++ [i]) none := by
  have hne : l.head ≠ some i := fun e => hi (List.mem_of_getLast? (hh.symm.trans e))
  have hnode : ∃ v, (l.linkFront i).nodes[i]? = some ⟨some v, none, l.head⟩ := by
    obtain ⟨v, hv⟩ := Option.isSome_iff_exists.1 hv
    obtain ⟨⟨_, p, q⟩, hn, rfl⟩ := Option.bind_eq_some_iff.1 hv
    exact ⟨v, by rw [nodes_linkFront hne, if_pos rfl, hn]; rfl⟩
  obtain rfl | ⟨js, k, rfl⟩ := is.eq_nil_or_concat'
  · obtain ⟨v, hnode⟩ := hnode
    exact ⟨⟨v, by rw [hnode, hh]; rfl⟩, trivial⟩
  · have hk : l.head = some k := by simpa using hh
    have hki : k ≠ i := fun e => hne (hk.trans (congrArg _ e))
    have hkj : ∀ j ∈ js, j ≠ i ∧ k ≠ j := by grind
    refine strand_append.2 ⟨h.relinkLast ?_ fun j hj => ?_, ?_⟩
    · rw [nodes_linkFront hne, if_neg hki, if_pos hk]
      rfl
    · obtain ⟨hji, hkj⟩ := hkj j hj
      rw [nodes_linkFront hne, if_neg hji, if_neg (by simpa [hk] using hkj)]
    · obtain ⟨v, hnode⟩ := hnode
      exact ⟨⟨v, by simp [hnode, hk]⟩, trivial⟩

/-- What taking a node out of a strand does to the nodes: only it and its neighbours change. -/
theorem nodes_unlink_of_nodup {as bs : List Nat} {v : Option α}
    (hn : l.nodes[i]? = some ⟨v, bs.head?, as.getLast?⟩) (hd : (as ++ i :: bs).Nodup) (j : Nat) :
    (l.unlink i).nodes[j]? =
      if j = i then l.nodes[j]?.map fun n => { n with prev := none, next := none }
      else if bs.head? = some j then l.nodes[j]?.map fun m => { m with next := as.getLast? }
      else if as.getLast? = some j then l.nodes[j]?.map fun m => { m with prev := bs.head? }
      else l.nodes[j]? := by
  obtain ⟨-, hdb, hab⟩ := List.nodup_append.1 hd
  refine nodes_unlink hn (fun e => ?_) (fun e => ?_) (fun p e e' => ?_) j
  · exact (List.nodup_cons.1 hdb).1 (List.mem_of_head? e)
  · exact hab i (List.mem_of_getLast? e) i List.mem_cons_self rfl
  · exact hab p (List.mem_of_getLast? e') p (List.mem_cons_of_mem i (List.mem_of_head? e)) rfl

theorem nodes_unlink_of_not_mem {as bs : List Nat} {v : Option α}
    (hn : l.nodes[i]? = some ⟨v, bs.head?, as.getLast?⟩) (hd : (as ++ i :: bs).Nodup)
    (hj : j ∉ as ++ i :: bs) : (l.unlink i).nodes[j]? = l.nodes[j]? := by
  rw [nodes_unlink_of_nodup hn hd, if_neg fun e => ?_, if_neg fun e => ?_, if_neg fun e => ?_]
  · exact hj (by simp [List.mem_of_getLast? e])
  · exact hj (by simp [List.mem_of_head? e])
  · exact hj (by simp [e])

/-- A node taken out leaves the strand of the others. -/
theorem strand_unlink {as bs : List Nat} {v : Option α} (ha : l.Strand none as (some i))
    (hb : l.Strand (some i) bs none) (hn : l.nodes[i]? = some ⟨v, bs.head?, as.getLast?⟩)
    (hd : (as ++ i :: bs).Nodup) : (l.unlink i).Strand none (as ++ bs) none := by
  obtain ⟨hda, hdb, hab⟩ := List.nodup_append.1 hd
  have hne : ∀ j, j ∈ as ∨ j ∈ bs → j ≠ i := by
    rintro j (hj | hj) rfl
    · exact hab j hj j List.mem_cons_self rfl
    · exact (List.nodup_cons.1 hdb).1 hj
  have hfirst : ∀ j ∈ as, bs.head? ≠ some j := fun j hj e =>
    hab j hj j (List.mem_cons_of_mem i (List.mem_of_head? e)) rfl
  have hlast : ∀ j ∈ bs, as.getLast? ≠ some j := fun j hj e =>
    hab j (List.mem_of_getLast? e) j (List.mem_cons_of_mem i hj) rfl
  have hnodes := nodes_unlink_of_nodup hn hd
  refine strand_append.2 ⟨?_, ?_⟩
  · obtain rfl | ⟨as, k, rfl⟩ := as.eq_nil_or_concat'
    · trivial
    refine ha.relinkLast ?_ fun j hj => ?_
    · have hk : k ∈ as ++ [k] := by simp
      rw [hnodes, if_neg (hne k (.inl hk)), if_neg (hfirst k hk), if_pos (by simp), Option.or_none]
    · have hj' : j ∈ as ++ [k] := by simp [hj]
      have hjk : k ≠ j := by
        rintro rfl
        exact (List.nodup_append.1 hda).2.2 k hj k (by simp) rfl
      rw [hnodes, if_neg (hne j (.inl hj')), if_neg (hfirst j hj'), if_neg (by simpa using hjk)]
  · cases bs with
    | nil => trivial
    | cons k bs =>
      refine hb.relinkFirst ?_ fun j hj => ?_
      · rw [hnodes, if_neg (hne k (.inr List.mem_cons_self)), if_pos (by rfl), Option.or_none]
      · have hjk : k ≠ j := by
          rintro rfl
          exact (List.nodup_cons.1 (List.nodup_cons.1 hdb).2).1 hj
        rw [hnodes, if_neg (hne j (.inr (List.mem_cons_of_mem k hj))), if_neg (by simpa using hjk),
          if_neg (hlast j (List.mem_cons_of_mem k hj))]

/-- The ends of the list after a node was taken out. -/
theorem head_unlink {as bs : List Nat} {v : Option α} (hh : l.head = (as ++ i :: bs).getLast?)
    (hn : l.nodes[i]? = some ⟨v, bs.head?, as.getLast?⟩) :
    (l.unlink i).head = (as ++ bs).getLast? := by
  unfold unlink
  rw [hn]
  cases bs with
  | nil => cases h : as.getLast? <;> simp [edit, h]
  | cons k bs => cases as.getLast? <;> simp [edit, hh, List.getLast?_cons]

theorem tail_unlink {as bs : List Nat} {v : Option α} (ht : l.tail = (as ++ i :: bs).head?)
    (hn : l.nodes[i]? = some ⟨v, bs.head?, as.getLast?⟩) :
    (l.unlink i).tail = (as ++ bs).head? := by
  unfold unlink
  rw [hn]
  obtain rfl | ⟨as, k, rfl⟩ := as.eq_nil_or_concat'
  · cases h : bs.head? <;> simp [edit, h]
  · cases bs.head? <;> simp [edit, ht, List.head?_append]

/-! ### Both chains -/

/-- The empty nodes `is`, each linked to the next one. -/
def Spare (l : Recency α) : Option Nat → List Nat → Prop
  | first, [] => first = none
  | first, i :: is => first = some i ∧ ∃ p n, l.nodes[i]? = some ⟨none, p, n⟩ ∧ l.Spare n is

/-- A chain of empty nodes only depends on its own nodes. -/
theorem Spare.congr {first : Option Nat} (h : l.Spare first is)
    (hl : ∀ i ∈ is, l'.nodes[i]? = l.nodes[i]?) : l'.Spare first is := by
  induction is generalizing first with
  | nil => exact h
  | cons i is ih =>
    obtain ⟨hf, p, n, hn, hs⟩ := h
    refine ⟨hf, p, n, ?_, ih hs fun j hj => hl j (List.mem_cons_of_mem i hj)⟩
    rw [hl i List.mem_cons_self]
    exact hn

theorem Spare.get?_eq_none {first : Option Nat} (h : l.Spare first is) (hi : i ∈ is) :
    l.get? i = none := by
  induction is generalizing first with
  | nil => cases hi
  | cons j js ih =>
    obtain ⟨-, p, n, hj, hs⟩ := h
    obtain rfl | hi := List.mem_cons.1 hi
    · simp [get?, hj]
    · exact ih hs hi

/-- The nodes `is` hold the values, least recently used first, and the nodes `spare` are empty, in
the order in which they will be used again. -/
structure Holds (l : Recency α) (is spare : List Nat) : Prop where
  strand : l.Strand none is none
  head : l.head = is.getLast?
  tail : l.tail = is.head?
  chain : l.Spare l.free spare
  cover : (is ++ spare).Perm (List.range l.slots)
  size : l.size = is.length

theorem holds_empty : Holds ({} : Recency α) [] [] := ⟨trivial, rfl, rfl, rfl, .nil, rfl⟩

namespace Holds

theorem nodup (h : l.Holds is spare) : (is ++ spare).Nodup :=
  h.cover.nodup_iff.2 List.nodup_range

theorem nodup_left (h : l.Holds is spare) : is.Nodup := (List.nodup_append.1 h.nodup).1

theorem not_mem_spare (h : l.Holds is spare) (hi : i ∈ is) : i ∉ spare := fun hs =>
  (List.nodup_append.1 h.nodup).2.2 i hi i hs rfl

theorem lt_slots (h : l.Holds is spare) (hi : i ∈ is) : i < l.slots :=
  List.mem_range.1 (h.cover.mem_iff.1 (List.mem_append_left spare hi))

theorem length_le (h : l.Holds is spare) : is.length ≤ l.slots := by
  have := h.cover.length_eq
  simp at this
  omega

/-- A node of the strand, with its neighbours. -/
theorem node {as bs : List Nat} (h : l.Holds (as ++ i :: bs) spare) :
    ∃ v, l.nodes[i]? = some ⟨some v, bs.head?, as.getLast?⟩ := by
  obtain ⟨-, ⟨v, hv⟩, -⟩ := strand_append.1 h.strand
  exact ⟨v, by rw [hv, Option.or_none, Option.or_none]⟩

/-- The nodes that have a value are those of the strand. -/
theorem isSome_get? (h : l.Holds is spare) : (l.get? i).isSome ↔ i ∈ is := by
  refine ⟨fun hi => ?_, fun hi => ?_⟩
  · by_contra hn
    have hlt : i < l.slots := by
      by_contra hle
      simp [get?_eq_none_of_le (Nat.le_of_not_lt hle)] at hi
    have hmem : i ∈ spare := by
      simpa [hn] using h.cover.mem_iff.2 (List.mem_range.2 hlt)
    simp [h.chain.get?_eq_none hmem] at hi
  · obtain ⟨as, bs, rfl⟩ := List.append_of_mem hi
    obtain ⟨v, hv⟩ := h.node
    simp [get?, hv]

theorem mem_of_get? {v : α} (h : l.Holds is spare) (hv : l.get? i = some v) : i ∈ is :=
  h.isSome_get?.1 (by simp [hv])

theorem exists_get? (h : l.Holds is spare) (hi : i ∈ is) : ∃ v, l.get? i = some v :=
  Option.isSome_iff_exists.1 (h.isSome_get?.2 hi)

end Holds

/-! ### Operations -/

@[simp] theorem head_linkFront (l : Recency α) (i : Nat) : (l.linkFront i).head = some i := rfl

theorem tail_linkFront (l : Recency α) (i : Nat) :
    (l.linkFront i).tail = l.tail.or (some i) := by
  unfold linkFront editAt
  cases l.head <;> rfl

theorem free_linkFront (l : Recency α) (i : Nat) : (l.linkFront i).free = l.free := by
  unfold linkFront editAt
  cases l.head <;> rfl

theorem size_linkFront (l : Recency α) (i : Nat) : (l.linkFront i).size = l.size := by
  unfold linkFront editAt
  cases l.head <;> rfl

/-- A node with a value that is in neither chain is put in front. -/
theorem holds_linkFront (hs : l.Strand none is none) (hh : l.head = is.getLast?)
    (ht : l.tail = is.head?) (hf : l.Spare l.free spare)
    (hc : (is ++ [i] ++ spare).Perm (List.range l.slots)) (hv : (l.get? i).isSome)
    (hz : l.size = is.length + 1) : (l.linkFront i).Holds (is ++ [i]) spare := by
  have hd := hc.nodup_iff.2 List.nodup_range
  obtain ⟨hdi, -, hne⟩ := List.nodup_append.1 hd
  obtain ⟨hd', -, hi⟩ := List.nodup_append.1 hdi
  have hi : i ∉ is := fun h => hi i h i (by simp) rfl
  have hhead : l.head ≠ some i := fun e => hi (List.mem_of_getLast? (hh.symm.trans e))
  refine ⟨hs.linkFront hh hd' hi hv, by simp, ?_, ?_, ?_, ?_⟩
  · rw [tail_linkFront, ht, List.head?_append]
    rfl
  · rw [free_linkFront]
    refine hf.congr fun j hj => ?_
    have hij : j ≠ i := fun e => hne i (by simp) j hj e.symm
    have hhj : l.head ≠ some j := fun e =>
      hne j (List.mem_append_left _ (List.mem_of_getLast? (hh.symm.trans e))) j hj rfl
    rw [nodes_linkFront hhead, if_neg hij, if_neg hhj]
  · rwa [slots_linkFront]
  · rw [size_linkFront, hz, List.length_append]
    rfl

theorem grow_linkFront (l : Recency α) (i : Nat) :
    { l.linkFront i with size := (l.linkFront i).size + 1 } =
      ({ l with size := l.size + 1 } : Recency α).linkFront i := by
  unfold linkFront editAt
  cases l.head <;> rfl

theorem Holds.spare_eq_nil (h : l.Holds is spare) (hf : l.free = none) : spare = [] := by
  cases spare with
  | nil => rfl
  | cons k ks =>
    have hk := h.chain.1
    rw [hf] at hk
    cases hk

theorem Holds.exists_spare (h : l.Holds is spare) (hf : l.free = some i) :
    ∃ rest, spare = i :: rest ∧ ∃ n p, l.nodes[i]? = some ⟨none, p, n⟩ ∧ l.Spare n rest := by
  cases spare with
  | nil => exact absurd (hf.symm.trans h.chain) (by simp)
  | cons k ks =>
    obtain ⟨hk, p, n, hn, hs⟩ := h.chain
    obtain rfl : i = k := by simpa [hf] using hk
    exact ⟨ks, rfl, n, p, hn, hs⟩

/-- A value goes to a node of its own. -/
theorem Holds.push_fresh (h : l.Holds is []) (v : α) :
    let l' : Recency α := { l with
      nodes := l.nodes.push ⟨some v, none, none⟩, free := none, size := l.size + 1 }
    (l'.linkFront l.nodes.size).Holds (is ++ [l.nodes.size]) [] ∧
      ∀ j, (l'.linkFront l.nodes.size).get? j = if j = l.nodes.size then some v else l.get? j := by
  intro l'
  have hi : l.nodes.size ∉ is := fun hi => Nat.lt_irrefl _ (h.lt_slots hi)
  have hnodes : ∀ j, j ≠ l.nodes.size → l'.nodes[j]? = l.nodes[j]? := by
    intro j hj
    rw [Array.getElem?_push, if_neg hj]
  have hget : ∀ j, l'.get? j = if j = l.nodes.size then some v else l.get? j := by
    intro j
    rw [get?, Array.getElem?_push]
    split <;> rfl
  refine ⟨holds_linkFront ?_ h.head h.tail rfl ?_ ?_ (congrArg (· + 1) h.size), fun j => ?_⟩
  · exact h.strand.congr fun j hj => hnodes j fun e => hi (e ▸ hj)
  · have hc : is.Perm (List.range l.slots) := by simpa using h.cover
    simpa [l', slots, List.range_succ] using hc.append_right [l.slots]
  · rw [hget, if_pos rfl]
    rfl
  · rw [get?_linkFront]
    exact hget j

/-- A value goes to the first node without one. -/
theorem Holds.push_spare {rest : List Nat} {n p : Option Nat} (h : l.Holds is (i :: rest))
    (hn : l.nodes[i]? = some ⟨none, p, n⟩) (hrest : l.Spare n rest) (v : α) :
    let l' : Recency α := { l with
      nodes := l.nodes.setIfInBounds i ⟨some v, none, none⟩, free := n, size := l.size + 1 }
    (l'.linkFront i).Holds (is ++ [i]) rest ∧
      ∀ j, (l'.linkFront i).get? j = if j = i then some v else l.get? j := by
  intro l'
  have hlt : i < l.nodes.size := (Array.getElem?_eq_some_iff.1 hn).1
  have hi : i ∉ is := fun hi => h.not_mem_spare hi List.mem_cons_self
  have hir : i ∉ rest := (List.nodup_cons.1 (List.nodup_append.1 h.nodup).2.1).1
  have hnodes : ∀ j, l'.nodes[j]? = if j = i then some ⟨some v, none, none⟩ else l.nodes[j]? := by
    intro j
    rw [Array.getElem?_setIfInBounds]
    by_cases hj : j = i
    · simp [hj, hlt]
    · simp [hj, Ne.symm hj]
  have hget : ∀ j, l'.get? j = if j = i then some v else l.get? j := by
    intro j
    rw [get?, hnodes]
    split <;> rfl
  refine ⟨holds_linkFront ?_ h.head h.tail ?_ ?_ ?_ (congrArg (· + 1) h.size), fun j => ?_⟩
  · exact h.strand.congr fun j hj => (hnodes j).trans (if_neg fun e : j = i => hi (e ▸ hj))
  · exact hrest.congr fun j hj => (hnodes j).trans (if_neg fun e : j = i => hir (e ▸ hj))
  · simpa [l', slots] using h.cover
  · rw [hget, if_pos rfl]
    rfl
  · rw [get?_linkFront]
    exact hget j

/-- A value goes to a node that had none, which comes last. -/
theorem Holds.push (h : l.Holds is spare) (v : α) :
    (l.push v).1 ∉ is ∧ (l.push v).2.Holds (is ++ [(l.push v).1]) spare.tail ∧
      ∀ j, (l.push v).2.get? j = if j = (l.push v).1 then some v else l.get? j := by
  unfold Recency.push
  cases hf : l.free with
  | none =>
    obtain rfl := h.spare_eq_nil hf
    dsimp only
    rw [grow_linkFront]
    exact ⟨fun hi => Nat.lt_irrefl _ (h.lt_slots hi), h.push_fresh v⟩
  | some i =>
    obtain ⟨rest, rfl, n, p, hn, hrest⟩ := h.exists_spare hf
    dsimp only
    rw [grow_linkFront, hn]
    exact ⟨fun hi => h.not_mem_spare hi List.mem_cons_self, h.push_spare hn hrest v⟩

/-- A node of the strand, taken out and put in front. -/
theorem Holds.linkFront_unlink {as bs : List Nat} (h : l.Holds (as ++ i :: bs) spare) :
    ((l.unlink i).linkFront i).Holds (as ++ bs ++ [i]) spare := by
  obtain ⟨v, hn⟩ := h.node
  obtain ⟨hs, -, hs'⟩ := strand_append.1 h.strand
  refine holds_linkFront (strand_unlink (hs.congr fun _ _ => rfl) hs' hn h.nodup_left)
    (head_unlink h.head hn) (tail_unlink h.tail hn) ?_ ?_ ?_ ?_
  · rw [free_unlink]
    exact h.chain.congr fun j hj =>
      nodes_unlink_of_not_mem hn h.nodup_left fun hm => h.not_mem_spare hm hj
  · rw [slots_unlink]
    refine .trans (.append_right spare ?_) h.cover
    exact (List.perm_append_singleton i (as ++ bs)).trans List.perm_middle.symm
  · rw [get?_unlink]
    exact h.isSome_get?.2 (by simp)
  · rw [size_unlink, h.size]
    simp [Nat.add_assoc]

theorem erase_of_append {as bs : List Nat} (h : (as ++ i :: bs).Nodup) :
    (as ++ i :: bs).erase i = as ++ bs := by
  have hi : i ∉ as := fun hi => (List.nodup_append.1 h).2.2 i hi i List.mem_cons_self rfl
  rw [List.erase_append_right _ hi, List.erase_cons_head]

/-- Using a value moves its node to the end of the strand and changes nothing else. -/
theorem Holds.moveToFront (h : l.Holds is spare) (hi : i ∈ is) :
    ∃ l', (moveToFront i).result l = (.ok (), l') ∧ l'.Holds (is.erase i ++ [i]) spare ∧
      ∀ j, l'.get? j = l.get? j := by
  obtain ⟨as, bs, rfl⟩ := List.append_of_mem hi
  rw [erase_of_append h.nodup_left]
  by_cases hf : l.front = i
  · refine ⟨l, by simp [Recency.moveToFront, Mutation.result_bind, hf], ?_, fun j => rfl⟩
    obtain rfl : bs = [] := by
      obtain rfl | ⟨bs, k, rfl⟩ := bs.eq_nil_or_concat'
      · rfl
      · have hk : k = i := by
          simpa [front, h.head, List.getLast?_cons, List.getLast?_append] using hf
        have := h.nodup_left
        simp [hk, List.nodup_append] at this
    simpa using h
  · refine ⟨(l.unlink i).linkFront i, ?_, h.linkFront_unlink, fun j => by simp⟩
    have hlt := h.lt_slots hi
    simp [Recency.moveToFront, Mutation.result_bind, hf, hlt]

/-- A value can be put in the place of another. -/
theorem Holds.edit_value {v : α} (h : l.Holds is spare) {f : Node α → Node α}
    (hf : ∀ n, l.nodes[i]? = some n → f n = { n with value := n.value.map fun _ => v }) :
    (l.edit i f).Holds is spare ∧
      ∀ j, (l.edit i f).get? j = if j = i then (l.get? j).map fun _ => v else l.get? j := by
  have hstrand : ∀ {o n : Option Nat} {js : List Nat}, l.Strand o js n →
      (l.edit i f).Strand o js n := by
    intro o n js
    induction js generalizing o with
    | nil => exact id
    | cons j js ih =>
      rintro ⟨⟨w, hw⟩, hs⟩
      refine ⟨?_, ih hs⟩
      rw [nodes_edit, hw]
      split
      · next e => exact ⟨v, by simp [hf _ (e ▸ hw)]⟩
      · exact ⟨w, rfl⟩
  have hchain : ∀ {o : Option Nat} {js : List Nat}, l.Spare o js → (l.edit i f).Spare o js := by
    intro o js
    induction js generalizing o with
    | nil => exact id
    | cons j js ih =>
      rintro ⟨ho, p, n, hj, hs⟩
      refine ⟨ho, p, n, ?_, ih hs⟩
      rw [nodes_edit, hj]
      split
      · next e => simp [hf _ (e ▸ hj)]
      · rfl
  refine ⟨⟨hstrand h.strand, h.head, h.tail, hchain h.chain, ?_, h.size⟩, fun j => ?_⟩
  · rw [slots_edit]
    exact h.cover
  · unfold get?
    rw [nodes_edit]
    split
    · next e =>
      subst e
      cases hj : l.nodes[j]? with
      | none => rfl
      | some n => simp [hf n hj]
    · rfl

theorem Holds.assign (h : l.Holds is spare) (i : Nat) (v : α) :
    (l.assign i v).Holds is spare ∧
      ∀ j, (l.assign i v).get? j = if j = i then (l.get? j).map fun _ => v else l.get? j :=
  h.edit_value fun _ _ => rfl

/-- Replacing a value gives the old one and counts as a use. -/
theorem Holds.replace {old : α} (h : l.Holds is spare) (hi : l.get? i = some old) (v : α) :
    ∃ l', (replace i v).result l = (.ok old, l') ∧ l'.Holds (is.erase i ++ [i]) spare ∧
      ∀ j, l'.get? j = if j = i then some v else l.get? j := by
  obtain ⟨⟨_, p, n⟩, hn, rfl⟩ := Option.bind_eq_some_iff.1 hi
  obtain ⟨h₁, hget⟩ := h.edit_value (v := v) (f := fun n => { n with value := some v })
    fun m hm => by cases hn.symm.trans hm; rfl
  obtain ⟨l', hr, hl', hget'⟩ := h₁.moveToFront (h.mem_of_get? hi)
  refine ⟨l', ?_, hl', fun j => ?_⟩
  · simp [Recency.replace, Mutation.result_bind, hn, hr, Except.map]
  · rw [hget', hget]
    split
    · next e => simp [e, hi]
    · rfl

/-! Removing a value empties its node, takes it out of the strand and puts it before the free ones. -/

section Detach

variable {as bs : List Nat}

/-- A node without its value. -/
def emptied (l : Recency α) (i : Nat) : Recency α := l.edit i fun n => { n with value := none }

/-- A node without its value, apart from the strand and before the free ones. -/
def detached (l : Recency α) (i : Nat) : Recency α :=
  ((l.emptied i).unlink i).edit i fun n => { n with next := l.free }

theorem nodes_emptied_of_ne (l : Recency α) {j : Nat} (hj : j ≠ i) :
    (l.emptied i).nodes[j]? = l.nodes[j]? := by
  rw [emptied, nodes_edit, if_neg hj]

theorem nodes_detached_of_ne (l : Recency α) {j : Nat} (hj : j ≠ i) :
    (l.detached i).nodes[j]? = ((l.emptied i).unlink i).nodes[j]? := by
  rw [detached, nodes_edit, if_neg hj]

theorem Holds.nodes_emptied (h : l.Holds (as ++ i :: bs) spare) :
    (l.emptied i).nodes[i]? = some ⟨none, bs.head?, as.getLast?⟩ := by
  obtain ⟨v, hn⟩ := h.node
  rw [emptied, nodes_edit, if_pos rfl, hn]
  rfl

theorem Holds.nodes_detached (h : l.Holds (as ++ i :: bs) spare) :
    (l.detached i).nodes[i]? = some ⟨none, none, l.free⟩ := by
  have hn := h.nodes_emptied
  rw [detached, nodes_edit, if_pos rfl, nodes_unlink_of_nodup hn h.nodup_left, if_pos rfl, hn]
  rfl

theorem Holds.ne_of_mem (h : l.Holds (as ++ i :: bs) spare) : ∀ j ∈ as ++ bs, j ≠ i := by
  rintro j hj rfl
  exact (List.nodup_cons.1 (List.nodup_middle.1 h.nodup_left)).1 hj

theorem Holds.strand_detached (h : l.Holds (as ++ i :: bs) spare) :
    (l.detached i).Strand none (as ++ bs) none := by
  have hne := h.ne_of_mem
  obtain ⟨ha, -, hb⟩ := strand_append.1 h.strand
  have hs := strand_unlink
    (ha.congr fun j hj => nodes_emptied_of_ne l (hne j (List.mem_append_left bs hj)))
    (hb.congr fun j hj => nodes_emptied_of_ne l (hne j (List.mem_append_right as hj)))
    h.nodes_emptied h.nodup_left
  exact hs.congr fun j hj => nodes_detached_of_ne l (hne j hj)

theorem Holds.spare_detached (h : l.Holds (as ++ i :: bs) spare) :
    (l.detached i).Spare l.free spare := by
  refine h.chain.congr fun j hj => ?_
  have hm : j ∉ as ++ i :: bs := fun hm => h.not_mem_spare hm hj
  have hji : j ≠ i := fun e => hm (by simp [e])
  rw [nodes_detached_of_ne l hji, nodes_unlink_of_not_mem h.nodes_emptied h.nodup_left hm,
    nodes_emptied_of_ne l hji]

theorem Holds.get?_detached (h : l.Holds (as ++ i :: bs) spare) (j : Nat) :
    (l.detached i).get? j = if j = i then none else l.get? j := by
  by_cases hj : j = i
  · rw [if_pos hj, get?, hj, h.nodes_detached]
    rfl
  · rw [if_neg hj, get?, nodes_detached_of_ne l hj]
    refine (get?_unlink (l.emptied i) i j).trans ?_
    rw [get?, nodes_emptied_of_ne l hj, get?]

end Detach

/-- Removing a value empties its node, which will be used again next, and changes nothing else. -/
theorem Holds.remove {v : α} (h : l.Holds is spare) (hi : l.get? i = some v) :
    ∃ l', (remove i).result l = (.ok v, l') ∧ l'.Holds (is.erase i) (i :: spare) ∧
      ∀ j, l'.get? j = if j = i then none else l.get? j := by
  obtain ⟨as, bs, rfl⟩ := List.append_of_mem (h.mem_of_get? hi)
  obtain ⟨w, hn⟩ := h.node
  obtain rfl : w = v := by simpa [get?, hn] using hi
  rw [erase_of_append h.nodup_left]
  have hsize : (l.detached i).size = (as ++ bs).length + 1 := by
    refine (size_unlink (l.emptied i) i).trans (h.size.trans ?_)
    simp [Nat.add_assoc]
  have hslots : (l.detached i).slots = l.slots := by simp [detached, emptied]
  refine ⟨{ l.detached i with free := some i, size := (l.detached i).size - 1 }, ?_,
    ⟨h.strand_detached.congr fun _ _ => rfl, ?_, ?_,
      ⟨rfl, none, l.free, h.nodes_detached, h.spare_detached.congr fun _ _ => rfl⟩, ?_, ?_⟩,
    h.get?_detached⟩
  · simp [Recency.remove, Mutation.result_bind, hn, detached, emptied, Except.map]
  · exact head_unlink (l := l.emptied i) h.head h.nodes_emptied
  · exact tail_unlink (l := l.emptied i) h.tail h.nodes_emptied
  · refine .trans ?_ (hslots ▸ h.cover)
    rw [List.append_assoc as (i :: bs), List.cons_append]
    exact List.perm_middle.trans (by rw [List.append_assoc]; exact List.perm_middle.symm)
  · simp [hsize]

/-! ### The sequence -/

theorem Strand.follow_eq {o : Option Nat} (h : l.Strand o is none) {fuel : Nat}
    (hf : is.length ≤ fuel) :
    l.follow fuel is.head? = is.filterMap fun i => (l.get? i).map (i, ·) := by
  induction is generalizing o fuel with
  | nil => cases fuel <;> rfl
  | cons i is ih =>
    obtain ⟨⟨v, hv⟩, hs⟩ := h
    obtain _ | fuel := fuel
    · simp at hf
    · rw [List.head?_cons, follow, hv]
      have hget : l.get? i = some v := by simp [get?, hv]
      simp only [Option.or_none, List.filterMap_cons, hget, Option.map_some]
      rw [ih hs (by simpa using hf)]

/-- The sequence a list stands for: its strand with the values. -/
theorem Holds.toList (h : l.Holds is spare) :
    l.toList = is.filterMap fun i => (l.get? i).map (i, ·) := by
  rw [Recency.toList, h.tail]
  exact h.strand.follow_eq h.length_le

theorem Holds.mem_toList {v : α} (h : l.Holds is spare) :
    (i, v) ∈ l.toList ↔ l.get? i = some v := by
  rw [h.toList]
  simp only [List.mem_filterMap, Option.map_eq_some_iff, Prod.mk.injEq]
  refine ⟨?_, fun hv => ⟨i, h.mem_of_get? hv, v, hv, rfl, rfl⟩⟩
  rintro ⟨j, -, w, hw, rfl, rfl⟩
  exact hw

/-- The sequence names each node with a value once. -/
theorem Holds.map_fst_toList (h : l.Holds is spare) : l.toList.map (·.1) = is := by
  rw [h.toList, List.map_filterMap]
  refine (List.filterMap_congr fun i hi => ?_).trans (List.filterMap_some (l := is))
  obtain ⟨v, hv⟩ := h.exists_get? hi
  simp [hv]

theorem Holds.nodup_toList (h : l.Holds is spare) : l.toList.Nodup :=
  List.Nodup.of_map (·.1) (h.map_fst_toList ▸ h.nodup_left)

/-- Leaving a node out of a strand leaves its pair out of the sequence. -/
theorem filterMap_filter_ne (is : List Nat) (hget : ∀ j, j ≠ i → l'.get? j = l.get? j) :
    (is.filter (· ≠ i)).filterMap (fun j => (l'.get? j).map (j, ·)) =
      (is.filterMap fun j => (l.get? j).map (j, ·)).filter (·.1 ≠ i) := by
  induction is with
  | nil => rfl
  | cons j is ih =>
    by_cases hj : j = i
    · cases hl : l.get? i <;> simpa [hj, hl] using ih
    · cases hl : l.get? j <;> simpa [hj, hl, hget j hj] using ih

/-- The sequence after a node came last. -/
theorem Holds.toList_concat {v : α} (h : l.Holds is spare) {spare' : List Nat}
    (h' : l'.Holds (is.filter (· ≠ i) ++ [i]) spare') (hv : l'.get? i = some v)
    (hget : ∀ j, j ≠ i → l'.get? j = l.get? j) :
    l'.toList = l.toList.filter (·.1 ≠ i) ++ [(i, v)] := by
  rw [h.toList, h'.toList, List.filterMap_append, filterMap_filter_ne is hget]
  simp [hv]

theorem erase_eq_filter_ne (h : is.Nodup) : is.erase i = is.filter (· ≠ i) :=
  (h.erase_eq_filter i).trans (List.filter_congr fun j _ => by by_cases hj : j = i <;> simp [hj])

/-- The sequence after a node left. -/
theorem Holds.toList_erase {spare' : List Nat} (h : l.Holds is spare)
    (h' : l'.Holds (is.erase i) spare') (hget : ∀ j, j ≠ i → l'.get? j = l.get? j) :
    l'.toList = l.toList.filter (·.1 ≠ i) := by
  rw [h'.toList, erase_eq_filter_ne h.nodup_left, filterMap_filter_ne is hget, h.toList]

/-! ### Lists that stand for a sequence -/

/-- The nodes form two chains. -/
def WellLinked (l : Recency α) : Prop := ∃ is spare, l.Holds is spare

namespace WellLinked

theorem empty : WellLinked ({} : Recency α) := ⟨[], [], holds_empty⟩

theorem mem_toList {v : α} (h : l.WellLinked) : (i, v) ∈ l.toList ↔ l.get? i = some v :=
  let ⟨_, _, h⟩ := h
  h.mem_toList

theorem nodup_toList (h : l.WellLinked) : l.toList.Nodup :=
  let ⟨_, _, h⟩ := h
  h.nodup_toList

theorem push (h : l.WellLinked) (v : α) :
    (l.push v).2.WellLinked ∧ l.get? (l.push v).1 = none ∧
      (∀ j, (l.push v).2.get? j = if j = (l.push v).1 then some v else l.get? j) ∧
      (l.push v).2.toList = l.toList ++ [((l.push v).1, v)] := by
  obtain ⟨is, spare, h⟩ := h
  obtain ⟨hi, h', hget⟩ := h.push v
  have hf : is.filter (· ≠ (l.push v).1) = is :=
    List.filter_eq_self.2 fun j hj => by simpa using fun e : j = (l.push v).1 => hi (e ▸ hj)
  have hnone : l.get? (l.push v).1 = none := by
    rw [← Option.not_isSome_iff_eq_none, h.isSome_get?]
    exact hi
  refine ⟨⟨_, _, h'⟩, hnone, hget, ?_⟩
  rw [h.toList_concat (hf.symm ▸ h') (by rw [hget, if_pos rfl]) fun j hj => by rw [hget, if_neg hj],
    List.filter_eq_self.2]
  rintro ⟨j, w⟩ hj
  have hji : j ≠ (l.push v).1 := by
    rintro rfl
    exact hi (h.mem_of_get? (h.mem_toList.1 hj))
  simpa using hji

theorem replace {old : α} (h : l.WellLinked) (hi : l.get? i = some old) (v : α) :
    ∃ l', (replace i v).result l = (.ok old, l') ∧ l'.WellLinked ∧
      (∀ j, l'.get? j = if j = i then some v else l.get? j) ∧
      l'.toList = l.toList.filter (·.1 ≠ i) ++ [(i, v)] := by
  obtain ⟨is, spare, h⟩ := h
  obtain ⟨l', hr, h', hget⟩ := h.replace hi v
  refine ⟨l', hr, ⟨_, _, h'⟩, hget, ?_⟩
  rw [erase_eq_filter_ne h.nodup_left] at h'
  exact h.toList_concat h' (by rw [hget, if_pos rfl]) fun j hj => by rw [hget, if_neg hj]

/-- A value is used and changed on the way. -/
theorem use {old : α} (h : l.WellLinked) (hi : l.get? i = some old) (v : α) :
    ∃ l', (moveToFront i).result l = (.ok (), l') ∧ (∀ j, l'.get? j = l.get? j) ∧
      (l'.assign i v).WellLinked ∧
      (∀ j, (l'.assign i v).get? j = if j = i then some v else l.get? j) ∧
      (l'.assign i v).toList = l.toList.filter (·.1 ≠ i) ++ [(i, v)] := by
  obtain ⟨is, spare, h⟩ := h
  obtain ⟨l', hr, h', hget⟩ := h.moveToFront (h.mem_of_get? hi)
  obtain ⟨h'', hassign⟩ := h'.assign i v
  have hget' : ∀ j, (l'.assign i v).get? j = if j = i then some v else l.get? j := by
    intro j
    rw [hassign, hget]
    split
    · next e => rw [e, hi]; rfl
    · rfl
  refine ⟨l', hr, hget, ⟨_, _, h''⟩, hget', ?_⟩
  rw [erase_eq_filter_ne h.nodup_left] at h''
  exact h.toList_concat h'' (by rw [hget', if_pos rfl]) fun j hj => by rw [hget', if_neg hj]

theorem remove {v : α} (h : l.WellLinked) (hi : l.get? i = some v) :
    ∃ l', (remove i).result l = (.ok v, l') ∧ l'.WellLinked ∧
      (∀ j, l'.get? j = if j = i then none else l.get? j) ∧
      l'.toList = l.toList.filter (·.1 ≠ i) := by
  obtain ⟨is, spare, h⟩ := h
  obtain ⟨l', hr, h', hget⟩ := h.remove hi
  exact ⟨l', hr, ⟨_, _, h'⟩, hget, h.toList_erase h' fun j hj => by rw [hget, if_neg hj]⟩

end WellLinked

end TileStore.Recency
