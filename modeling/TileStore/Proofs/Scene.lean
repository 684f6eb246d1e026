import TileStore.Proofs.Numbering

/-!
# Owners do not come back

The object that owns a tile is gone when nothing refers to it any more. Names refer to objects, for two
reasons, and so do commands while they cache tiles. `Scene.Backed` says that all of these references are
counted, and each operation of a scene keeps them so. What nothing refers to can be reached in no way,
so an object that is gone stays gone: `Scene.Later`.
-/

namespace TileStore

open Std (TreeMap)

/-! ### Tables of objects -/

section Tables

variable {t : TreeMap String Owner} {name : String} {o : Owner}

theorem nodup_toList (t : TreeMap String Owner) : t.toList.Nodup :=
  t.distinct_keys_toList.imp fun hne heq => hne (by simp [heq])

theorem toList_erase_perm (h : t[name]? = some o) :
    t.toList.Perm ((name, o) :: (t.erase name).toList) := by
  refine (List.perm_ext_iff_of_nodup (nodup_toList t) (List.nodup_cons.2 ⟨?_, nodup_toList _⟩)).2 ?_
  · simp [TreeMap.mem_toList_iff_getElem?_eq_some]
  · rintro ⟨k, x⟩
    rw [List.mem_cons, TreeMap.mem_toList_iff_getElem?_eq_some,
      TreeMap.mem_toList_iff_getElem?_eq_some, TreeMap.getElem?_erase]
    by_cases hk : name = k
    · subst hk
      simp [h, eq_comm]
    · simp [hk, Ne.symm hk]

theorem toList_erase_of_none (h : t[name]? = none) : (t.erase name).toList.Perm t.toList := by
  refine (List.perm_ext_iff_of_nodup (nodup_toList _) (nodup_toList t)).2 ?_
  rintro ⟨k, x⟩
  rw [TreeMap.mem_toList_iff_getElem?_eq_some, TreeMap.mem_toList_iff_getElem?_eq_some,
    TreeMap.getElem?_erase]
  by_cases hk : name = k
  · subst hk
    simp [h]
  · simp [hk]

theorem toList_insert_perm (t : TreeMap String Owner) (name : String) (o : Owner) :
    (t.insert name o).toList.Perm ((name, o) :: (t.erase name).toList) := by
  refine (toList_erase_perm (t := t.insert name o) (by simp)).trans (.cons _ ?_)
  refine (List.perm_ext_iff_of_nodup (nodup_toList _) (nodup_toList _)).2 ?_
  rintro ⟨k, x⟩
  rw [TreeMap.mem_toList_iff_getElem?_eq_some, TreeMap.mem_toList_iff_getElem?_eq_some,
    TreeMap.getElem?_erase, TreeMap.getElem?_erase, TreeMap.getElem?_insert]
  by_cases hk : name = k <;> simp [hk]

/-- One reference if this is one to object `n`, and none otherwise. -/
def refersTo (n : Nat) (o? : Option Owner) : Nat := o?.elim 0 fun o => if o.number = n then 1 else 0

/-- How many names in a table stand for object `n`. -/
def namesIn (t : TreeMap String Owner) (n : Nat) : Nat := t.toList.countP (·.2.number = n)

theorem namesIn_eq (t : TreeMap String Owner) (name : String) (n : Nat) :
    namesIn t n = namesIn (t.erase name) n + refersTo n t[name]? := by
  cases h : t[name]? with
  | none => exact ((toList_erase_of_none h).countP_eq _).symm
  | some o =>
    refine ((toList_erase_perm h).countP_eq _).trans (List.countP_cons.trans ?_)
    simp [refersTo, namesIn]

theorem namesIn_insert (t : TreeMap String Owner) (name : String) (o : Owner) (n : Nat) :
    namesIn (t.insert name o) n = namesIn (t.erase name) n + refersTo n (some o) := by
  refine ((toList_insert_perm t name o).countP_eq _).trans (List.countP_cons.trans ?_)
  simp [refersTo, namesIn]

end Tables

namespace Scene

variable {s s' s'' : Scene} {name : String} {o : Owner} {held : List Owner} {n : Nat}

/-! ### References -/

/-- How many references to object `n` are counted. -/
def count (s : Scene) (n : Nat) : Nat := s.references[n]?.getD 0

theorem alive_moment (s : Scene) (n : Nat) : s.moment.alive n = decide (0 < s.count n) := rfl

theorem lt_of_count (h : 0 < s.count n) : n < s.references.size := by
  by_contra hle
  rw [count, Array.getElem?_eq_none (Nat.le_of_not_lt hle)] at h
  exact Nat.lt_irrefl 0 h

theorem count_retain (h : 0 < s.count o.number) (n : Nat) :
    (s.retain o).count n = s.count n + refersTo n (some o) := by
  have hlt := lt_of_count h
  unfold count retain refersTo
  rw [Array.getElem?_modify]
  by_cases hn : o.number = n
  · subst hn
    simp [hlt]
  · simp [hn]

theorem count_release (s : Scene) (o : Owner) (n : Nat) :
    (s.release o).count n = s.count n - refersTo n (some o) := by
  unfold count release refersTo
  rw [Array.getElem?_modify]
  by_cases hn : o.number = n
  · subst hn
    cases s.references[o.number]? <;> simp
  · simp [hn]

theorem count_releaseFrom (s : Scene) (t : TreeMap String Owner) (name : String) (n : Nat) :
    (s.releaseFrom t name).count n = s.count n - refersTo n t[name]? := by
  unfold releaseFrom
  cases t[name]? with
  | none => rfl
  | some o => exact s.count_release o n

/-- To take a reference away changes no table and forgets no object. -/
theorem releaseFrom_eq (s : Scene) (t : TreeMap String Owner) (name : String) :
    (s.releaseFrom t name).owners = s.owners ∧ (s.releaseFrom t name).holds = s.holds ∧
      (s.releaseFrom t name).references.size = s.references.size := by
  unfold releaseFrom
  cases t[name]? with
  | none => exact ⟨rfl, rfl, rfl⟩
  | some o => exact ⟨rfl, rfl, Array.size_modify⟩

theorem count_drop (s : Scene) (name : String) (n : Nat) :
    (s.drop name).count n = s.count n - refersTo n s.owners[name]? :=
  s.count_releaseFrom s.owners name n

theorem count_letGo (s : Scene) (name : String) (n : Nat) :
    (s.letGo name).count n = s.count n - refersTo n s.holds[name]? :=
  s.count_releaseFrom s.holds name n

theorem count_hold (ho : 0 < s.count o.number) (name : String) (n : Nat) :
    (s.hold name o).count n = s.count n + refersTo n (some o) - refersTo n s.holds[name]? := by
  rw [← count_retain ho]
  exact (s.retain o).count_releaseFrom s.holds name n

/-- A new object has one reference. -/
theorem count_adopt (s : Scene) (name : String) (image : Identity) (n : Nat) :
    (s.adopt name image).count n =
      if n = s.references.size then 1 else s.count n - refersTo n s.owners[name]? := by
  obtain ⟨-, -, hsize⟩ := s.releaseFrom_eq s.owners name
  rw [← count_releaseFrom, count, adopt, ← hsize]
  dsimp only
  rw [Array.getElem?_push]
  split <;> rfl

/-- All references are counted: those of names and those that commands hold. -/
def Backed (held : List Owner) (s : Scene) : Prop :=
  ∀ n, namesIn s.owners n + namesIn s.holds n + held.countP (·.number = n) ≤ s.count n

/-- One scene comes after another: no objects were forgotten, and those that were gone are gone. -/
structure Later (s s' : Scene) : Prop where
  size : s.references.size ≤ s'.references.size
  gone : ∀ n < s.references.size, s.count n = 0 → s'.count n = 0

theorem Later.refl (s : Scene) : s.Later s := ⟨le_rfl, fun _ _ => id⟩

theorem Later.trans (h : s.Later s') (h' : s'.Later s'') : s.Later s'' :=
  ⟨h.size.trans h'.size, fun n hn hgone => h'.gone n (hn.trans_le h.size) (h.gone n hn hgone)⟩

/-- In the beginning there are no references. -/
theorem backed_empty : Backed [] {} := fun n => by simp [namesIn, count]

namespace Backed

/-- What is held is alive. -/
theorem count_pos (h : s.Backed held) (ho : o ∈ held) : 0 < s.count o.number := by
  have hpos : 0 < held.countP (·.number = o.number) := List.countP_pos_iff.2 ⟨o, ho, by simp⟩
  have := h o.number
  omega

/-- What has a name is alive. -/
theorem count_pos_of_owners (h : s.Backed held) (ho : s.owners[name]? = some o) :
    0 < s.count o.number := by
  have hle := h o.number
  rw [namesIn_eq s.owners name, ho] at hle
  simp only [refersTo, Option.elim_some, if_true] at hle
  omega

theorem retain (h : s.Backed held) (ho : 0 < s.count o.number) : (s.retain o).Backed (o :: held) := by
  intro n
  have hle := h n
  rw [count_retain ho, List.countP_cons]
  simp only [Scene.retain, refersTo, Option.elim_some, decide_eq_true_eq] at hle ⊢
  omega

theorem release (h : s.Backed (o :: held)) : (s.release o).Backed held := by
  intro n
  have hle := h n
  rw [List.countP_cons] at hle
  rw [count_release]
  simp only [Scene.release, refersTo, Option.elim_some, decide_eq_true_eq] at hle ⊢
  omega

theorem drop (h : s.Backed held) (name : String) : (s.drop name).Backed held := by
  intro n
  have hle := h n
  obtain ⟨-, hholds, -⟩ := s.releaseFrom_eq s.owners name
  rw [namesIn_eq s.owners name] at hle
  rw [count_drop, Scene.drop, hholds]
  dsimp only
  omega

theorem letGo (h : s.Backed held) (name : String) : (s.letGo name).Backed held := by
  intro n
  have hle := h n
  obtain ⟨howners, -, -⟩ := s.releaseFrom_eq s.holds name
  rw [namesIn_eq s.holds name] at hle
  rw [count_letGo, Scene.letGo, howners]
  dsimp only
  omega

theorem hold (h : s.Backed held) (name : String) (ho : 0 < s.count o.number) :
    (s.hold name o).Backed held := by
  intro n
  have hle := h n
  have hinsert := namesIn_insert s.holds name o n
  obtain ⟨howners, hholds, -⟩ := (s.retain o).releaseFrom_eq s.holds name
  rw [namesIn_eq s.holds name] at hle
  rw [count_hold ho, Scene.hold]
  dsimp only
  rw [howners, hholds]
  dsimp only [Scene.retain]
  omega

theorem adopt (h : s.Backed held) (name : String) (image : Identity) :
    (s.adopt name image).Backed held := by
  intro n
  have hle := h n
  have hinsert := namesIn_insert s.owners name ⟨s.references.size, image⟩ n
  obtain ⟨howners, hholds, -⟩ := s.releaseFrom_eq s.owners name
  rw [namesIn_eq s.owners name] at hle
  rw [count_adopt, Scene.adopt]
  dsimp only
  rw [howners, hholds, hinsert]
  by_cases hn : n = s.references.size
  · -- nothing refers to the object before it is made
    have hnone : s.count s.references.size = 0 := by
      rw [count, Array.getElem?_eq_none le_rfl]
      rfl
    subst hn
    simp only [refersTo, Option.elim_some, if_true]
    omega
  · simp only [refersTo, Option.elim_some, if_neg hn, if_neg (Ne.symm hn)] at hle ⊢
    omega

end Backed

section Later

theorem later_retain (ho : 0 < s.count o.number) : s.Later (s.retain o) := by
  refine ⟨Array.size_modify.ge, fun n _ hgone => ?_⟩
  have hne : o.number ≠ n := by
    rintro rfl
    omega
  rw [count_retain ho, hgone, refersTo, Option.elim_some, if_neg hne]

theorem later_release (s : Scene) (o : Owner) : s.Later (s.release o) := by
  refine ⟨Array.size_modify.ge, fun n _ hgone => ?_⟩
  rw [count_release, hgone, Nat.zero_sub]

theorem later_drop (s : Scene) (name : String) : s.Later (s.drop name) := by
  refine ⟨(s.releaseFrom_eq s.owners name).2.2.ge, fun n _ hgone => ?_⟩
  rw [count_drop, hgone, Nat.zero_sub]

theorem later_letGo (s : Scene) (name : String) : s.Later (s.letGo name) := by
  refine ⟨(s.releaseFrom_eq s.holds name).2.2.ge, fun n _ hgone => ?_⟩
  rw [count_letGo, hgone, Nat.zero_sub]

theorem later_hold (ho : 0 < s.count o.number) (name : String) : s.Later (s.hold name o) := by
  have hsize := ((s.retain o).releaseFrom_eq s.holds name).2.2
  refine ⟨(hsize.trans Array.size_modify).ge, fun n _ hgone => ?_⟩
  have hne : o.number ≠ n := by
    rintro rfl
    omega
  rw [count_hold ho, hgone, refersTo, Option.elim_some, if_neg hne, Nat.zero_sub]

theorem later_adopt (s : Scene) (name : String) (image : Identity) : s.Later (s.adopt name image) := by
  have hsize := (s.releaseFrom_eq s.owners name).2.2
  refine ⟨?_, fun n hn hgone => ?_⟩
  · rw [adopt, Array.size_push, hsize]
    exact Nat.le_succ _
  · rw [count_adopt, if_neg hn.ne, hgone, Nat.zero_sub]

end Later

end Scene

end TileStore
