import TileStore.Proofs.Tandem
import TileStore.Recency

/-!
# Recency lists with other values

A recency list does not look at its values. So to apply a function to all of them, which is what
`Recency.map` does, and then to work on the list comes to the same as the other way round.
-/

namespace TileStore.Recency

open Mutation

variable {α β : Type} {f : α → β} {l : Recency α}

/-- The node with another value. -/
def Node.map (f : α → β) (n : Node α) : Node β := ⟨n.value.map f, n.prev, n.next⟩

/-- The list with other values. -/
def map (f : α → β) (l : Recency α) : Recency β where
  nodes := l.nodes.map (·.map f)
  head := l.head
  tail := l.tail
  free := l.free
  size := l.size

/-! ### Reading -/

@[simp] theorem getElem?_map (f : α → β) (l : Recency α) (i : Nat) :
    (l.map f).nodes[i]? = (l.nodes[i]?).map (·.map f) := Array.getElem?_map

@[simp] theorem slots_map (f : α → β) (l : Recency α) : (l.map f).slots = l.slots := Array.size_map

@[simp] theorem get?_map (f : α → β) (l : Recency α) (i : Nat) :
    (l.map f).get? i = (l.get? i).map f := by
  rw [get?, get?, getElem?_map]
  cases l.nodes[i]? <;> rfl

theorem follow_map (f : α → β) (l : Recency α) (fuel : Nat) (link : Option Nat) :
    (l.map f).follow fuel link = (l.follow fuel link).map (Prod.map id f) := by
  induction fuel generalizing link with
  | zero => rfl
  | succ fuel ih =>
    cases link with
    | none => rfl
    | some i =>
      rw [follow, follow, getElem?_map]
      rcases l.nodes[i]? with _ | ⟨_ | v, prev, next⟩
      · rfl
      · rfl
      · exact congrArg _ (ih prev)

theorem toList_map (f : α → β) (l : Recency α) :
    (l.map f).toList = l.toList.map (Prod.map id f) := by
  rw [toList, toList, slots_map]
  exact follow_map f l l.slots l.tail

/-! ### Links -/

theorem edit_map {g : Node α → Node α} {g' : Node β → Node β}
    (hg : ∀ n, g' (n.map f) = (g n).map f) (l : Recency α) (i : Nat) :
    (l.map f).edit i g' = (l.edit i g).map f := by
  have hnodes : (l.nodes.map (·.map f)).modify i g' = (l.nodes.modify i g).map (·.map f) := by
    refine Array.ext_getElem? fun j => ?_
    rw [Array.getElem?_modify, Array.getElem?_map, Array.getElem?_map, Array.getElem?_modify]
    split
    · cases l.nodes[j]? with
      | none => rfl
      | some n => exact congrArg some (hg n)
    · rfl
  simp only [edit, map, hnodes]

theorem edit_next_map (f : α → β) (l : Recency α) (i : Nat) (next : Option Nat) :
    (l.map f).edit i (fun n => { n with next := next }) =
      (l.edit i fun n => { n with next := next }).map f := edit_map (fun _ => by rfl) l i

theorem edit_prev_map (f : α → β) (l : Recency α) (i : Nat) (prev : Option Nat) :
    (l.map f).edit i (fun n => { n with prev := prev }) =
      (l.edit i fun n => { n with prev := prev }).map f := edit_map (fun _ => by rfl) l i

theorem edit_links_map (f : α → β) (l : Recency α) (i : Nat) (prev next : Option Nat) :
    (l.map f).edit i (fun n => { n with prev := prev, next := next }) =
      (l.edit i fun n => { n with prev := prev, next := next }).map f := edit_map (fun _ => by rfl) l i

theorem linkFront_map (f : α → β) (l : Recency α) (i : Nat) :
    (l.map f).linkFront i = (l.linkFront i).map f := by
  have hhead : (l.map f).head = l.head := rfl
  unfold linkFront
  dsimp only
  rw [hhead, edit_links_map]
  cases l.head with
  | none => rfl
  | some j =>
    dsimp only [editAt]
    rw [edit_prev_map]
    rfl

theorem unlink_map (f : α → β) (l : Recency α) (i : Nat) :
    (l.map f).unlink i = (l.unlink i).map f := by
  unfold unlink
  rw [getElem?_map]
  -- where a link is missing, an end of the list moves instead of a neighbour
  rcases l.nodes[i]? with _ | ⟨v, _ | p, _ | q⟩
  · rfl
  · exact edit_links_map f { l with head := none, tail := none } i none none
  · refine (congrArg (edit · i _) (edit_prev_map f { l with head := some q } q none)).trans ?_
    exact edit_links_map f _ i none none
  · refine (congrArg (fun l => edit { l with tail := some p } i _) (edit_next_map f l p none)).trans ?_
    exact edit_links_map f { l.edit p fun n => { n with next := none } with tail := some p } i none none
  · dsimp only [Option.map_some, Node.map]
    rw [edit_next_map, edit_prev_map, edit_links_map]

/-! ### Operations -/

/-- Put a value into an empty node, which is not linked yet; the answer is the node. -/
def seat (l : Recency α) (v : α) : Nat × Recency α :=
  match l.free with
  | some i =>
    (i, { l with
      free := (l.nodes[i]?).bind (·.next)
      nodes := l.nodes.setIfInBounds i ⟨some v, none, none⟩ })
  | none => (l.nodes.size, { l with nodes := l.nodes.push ⟨some v, none, none⟩ })

/-- The list with one value more. -/
def grown (l : Recency α) : Recency α := { l with size := l.size + 1 }

theorem push_eq (l : Recency α) (v : α) :
    l.push v = ((l.seat v).1, ((l.seat v).2.linkFront (l.seat v).1).grown) := by
  unfold push seat
  cases l.free <;> rfl

theorem seat_map (f : α → β) (l : Recency α) (v : α) :
    (l.map f).seat (f v) = ((l.seat v).1, (l.seat v).2.map f) := by
  have hfree : (l.map f).free = l.free := rfl
  unfold seat
  rw [hfree]
  cases l.free with
  | none => simp [map, Node.map]
  | some i =>
    have hnext : ((l.map f).nodes[i]?).bind (fun n => n.next) =
        (l.nodes[i]?).bind (fun n => n.next) := by
      rw [getElem?_map]
      cases l.nodes[i]? <;> rfl
    dsimp only
    rw [hnext]
    simp [map, Node.map]

theorem push_map (f : α → β) (l : Recency α) (v : α) :
    (l.map f).push (f v) = ((l.push v).1, (l.push v).2.map f) := by
  rw [push_eq, push_eq, seat_map, linkFront_map]
  rfl

theorem assign_map (f : α → β) (l : Recency α) (i : Nat) (v : α) :
    (l.map f).assign i (f v) = (l.assign i v).map f := by
  refine edit_map (fun n => ?_) l i
  obtain ⟨_ | w, prev, next⟩ := n <;> rfl

/-- The second list is the first one with other values. -/
def Maps (f : α → β) (l : Recency α) (l' : Recency β) : Prop := l' = l.map f

namespace Maps

variable {l' : Recency β}

theorem empty (f : α → β) : Maps f {} {} := by simp [Maps, map]

theorem slots (h : Maps f l l') : l'.slots = l.slots := by rw [h, slots_map]

theorem get? (h : Maps f l l') (i : Nat) : l'.get? i = (l.get? i).map f := by rw [h, get?_map]

theorem toList (h : Maps f l l') : l'.toList = l.toList.map (Prod.map id f) := by rw [h, toList_map]

theorem push (h : Maps f l l') (v : α) : l'.push (f v) = ((l.push v).1, (l.push v).2.map f) := by
  rw [h, push_map]

theorem assign (h : Maps f l l') (i : Nat) (v : α) : Maps f (l.assign i v) (l'.assign i (f v)) := by
  rw [Maps, h, assign_map]

end Maps

theorem tracks_moveToFront (f : α → β) (i : Nat) :
    Tracks (Maps f) id (moveToFront i) (moveToFront i) := by
  refine tracks_get fun l _ hl => ?_
  obtain rfl := hl
  have hfront : (l.map f).front = l.front := rfl
  rw [hfront, slots_map, unlink_map, linkFront_map]
  split
  · exact ⟨rfl, rfl⟩
  · split
    · exact ⟨rfl, rfl⟩
    · trivial

theorem tracks_replace (f : α → β) (i : Nat) (v : α) :
    Tracks (Maps f) f (replace i v) (replace i (f v)) := by
  refine tracks_get fun l _ hl => ?_
  obtain rfl := hl
  rw [getElem?_map]
  cases l.nodes[i]? with
  | none => trivial
  | some n =>
    have hedit : (l.map f).edit i (fun n => { n with value := some (f v) }) =
        (l.edit i fun n => { n with value := some v }).map f := edit_map (fun _ => by rfl) l i
    dsimp only [Option.map_some]
    rw [alike_set_left, alike_set_right, hedit]
    obtain ⟨_ | w, prev, next⟩ := n
    · trivial
    · refine (tracks_moveToFront f i).bind (fun _ => ?_) _ _ rfl
      exact tracks_pure rfl

theorem tracks_remove (f : α → β) (i : Nat) : Tracks (Maps f) f (remove i) (remove i) := by
  refine tracks_get fun l _ hl => ?_
  obtain rfl := hl
  rw [getElem?_map]
  rcases l.nodes[i]? with _ | ⟨_ | v, prev, next⟩
  · trivial
  · trivial
  · have hemptied : (l.map f).edit i (fun n => { n with value := none }) =
        (l.edit i fun n => { n with value := none }).map f := edit_map (fun _ => by rfl) l i
    have hfree : (l.map f).free = l.free := rfl
    dsimp only [Option.map_some, Node.map]
    rw [alike_set_left, alike_set_right, hemptied, unlink_map, hfree, edit_next_map]
    exact ⟨rfl, rfl⟩

end TileStore.Recency
