import TileStore.Proofs.Marks
import TileStore.Proofs.Precedence

/-!
# What becomes of an entry

A story tells what becomes of every entry that is written in it. The next event under its key
decides: another entry takes its place, or it goes. From then on the story does not speak of it again,
since every entry is written once. `Tiles.Story.life` says so of an entry from the time when it is
written, together with the action that it is marked with.
-/

namespace TileStore

variable {g g' g₁ g₂ : Tiles} {xs ys : List Event} {x : Event} {e f : Entry} {a birth : Action}
  {isCached : Bool} {seq : Nat}

/-- What becomes of an entry that has been written, as one that was added or updated: whether it is
cached after these events, and what it is marked with. -/
inductive Fate (e : Entry) (birth : Action) : List Event → Bool → Action → Prop where
  /-- Nothing has happened under its key. -/
  | cached : Fate e birth [] true birth
  /-- Something happens under another key first. -/
  | elsewhere {x : Event} {xs : List Event} {isCached : Bool} {a : Action} : x.1.key ≠ e.key →
    Fate e birth xs isCached a → Fate e birth (x :: xs) isCached a
  /-- Another entry is written in its place. -/
  | replaced {f : Entry} {xs : List Event} : f.key = e.key → f ≠ e →
    Fate e birth ((f, .updated) :: xs) false birth
  | removed {xs : List Event} : Fate e birth ((e, .removed) :: xs) false .removed
  | evicted {xs : List Event} : Fate e birth ((e, .evicted) :: xs) false .evicted

/-- What becomes of an entry by events from the start: it is written, as one that was added if its key
is free then and as one that was updated if it is bound, and goes on from there. -/
inductive Life (e : Entry) : List Event → Bool → Action → Prop where
  | written {before after : List Event} {g : Tiles} {isCached : Bool} {a : Action} :
    Tiles.Story (fun _ => none) before g → Fate e (.ofWrite (g e.key).isSome) after isCached a →
    Life e (before ++ (e, .ofWrite (g e.key).isSome) :: after) isCached a

namespace Tiles

theorem Happens.unique (h : g.Happens x g₁) (h' : g.Happens x g₂) : g₁ = g₂ := by
  cases h with
  | write e =>
    generalize hy : ((e, .ofWrite (g e.key).isSome) : Event) = y at h'
    cases h' with
    | write f => rw [(Prod.mk.inj hy).1]
    | gone ha _ => simp [← (Prod.mk.inj hy).2] at ha
  | @gone e a ha he =>
    generalize hy : ((e, a) : Event) = y at h'
    cases h' with
    | write f => simp [(Prod.mk.inj hy).2] at ha
    | gone _ _ => rw [(Prod.mk.inj hy).1]

/-- No key but its own is bound to the number of an entry. -/
def Alone (g : Tiles) (e : Entry) : Prop := ∀ {k f}, g k = some f → f.seq = e.seq → k = e.key

theorem Alone.put (h : g.Alone e) (hf : f.seq ≠ e.seq) : (g.put f).Alone e := by
  intro k f' hk hseq
  rw [Tiles.put] at hk
  split at hk
  · exact absurd (Option.some.inj hk ▸ hseq) hf
  · exact h hk hseq

theorem Alone.drop (h : g.Alone e) (k : TileKey) : (g.drop k).Alone e := by
  intro j f hj hseq
  rw [Tiles.drop] at hj
  split at hj
  · cases hj
  · exact h hj hseq

theorem Alone.unbound (h : g.Alone e) (hn : ∀ f, g e.key = some f → f.seq ≠ e.seq) {k : TileKey}
    (hk : g k = some f) : f.seq ≠ e.seq :=
  fun hseq => hn f (h hk hseq ▸ hk) hseq

namespace Story

/-- Events lead to one end only. -/
theorem unique (h : g.Story xs g₁) (h' : g.Story xs g₂) : g₁ = g₂ := by
  induction h with
  | nil =>
    cases h'
    rfl
  | cons hx _ ih =>
    cases h' with
    | cons hx' hxs' => exact ih (hx.unique hx' ▸ hxs')

/-- Events are about what was there before or has been written. -/
theorem found_of_mem (h : g.Story xs g') (hx : x ∈ xs) :
    g x.1.key = some x.1 ∨ x.1 ∈ writtenIn xs := by
  obtain ⟨e, a⟩ := x
  cases ha : a.isWrite with
  | true => exact .inr (mem_writtenIn.2 ⟨a, hx, ha⟩)
  | false =>
    obtain ⟨before, after, rfl⟩ := List.append_of_mem hx
    refine (h.was_there ha).imp_right fun hbefore => ?_
    rw [writtenIn_append]
    exact List.mem_append_left _ hbefore

/-- A number that is not there and is not written again does not come back, and nothing is told of
it. -/
theorem left (h : g.Story xs g') (hn : ∀ {k f}, g k = some f → f.seq ≠ seq)
    (hw : ∀ f ∈ writtenIn xs, f.seq ≠ seq) :
    (∀ {k f}, g' k = some f → f.seq ≠ seq) ∧ ∀ x ∈ xs, x.1.seq ≠ seq :=
  ⟨fun hk => (h.found hk).elim hn (hw _), fun _ hx => (h.found_of_mem hx).elim hn (hw _)⟩

/-- What becomes of an entry that is there. -/
theorem fate (h : g.Story xs g') (he : g e.key = some e) (halone : g.Alone e)
    (hw : ∀ f ∈ writtenIn xs, f.seq ≠ e.seq) (birth : Action) :
    Fate e birth xs (decide (g' e.key = some e)) (xs.foldl (Action.noted e.seq) birth) := by
  induction h with
  | nil g =>
    rw [decide_eq_true he]
    exact .cached
  | @cons g g₁ g' x xs hx hxs ih =>
    have hrest : ∀ f ∈ writtenIn xs, f.seq ≠ e.seq := by
      intro f hf
      refine hw f ?_
      rw [writtenIn_cons]
      split
      · exact List.mem_cons_of_mem _ hf
      · exact hf
    -- Once no key is bound to the entry, the rest of the story is of no account.
    have hleft : g₁.Alone e → (∀ f, g₁ e.key = some f → f.seq ≠ e.seq) → ∀ b,
        decide (g' e.key = some e) = false ∧ xs.foldl (Action.noted e.seq) b = b := by
      intro halone hn b
      obtain ⟨hend, hnone⟩ := hxs.left (halone.unbound hn) hrest
      exact ⟨decide_eq_false fun hk => hend hk rfl, Action.foldl_noted_of_ne hnone b⟩
    rw [List.foldl_cons]
    cases hx with
    | write f =>
      have hf : f.seq ≠ e.seq := hw f (by simp [writtenIn_cons])
      rw [Action.noted, if_neg fun h => hf h.1]
      by_cases hkey : f.key = e.key
      · obtain ⟨hgone, hsame⟩ := hleft (halone.put hf) (by simp [put, hkey, hf]) birth
        rw [hgone, hsame, hkey, he]
        exact .replaced hkey fun h => hf (h ▸ rfl)
      · exact .elsewhere hkey (ih (by rwa [put, if_neg (Ne.symm hkey)]) (halone.put hf) hrest)
    | @gone f b hb hf =>
      by_cases hfe : f = e
      · subst hfe
        have hne : b ≠ .added := by
          rintro rfl
          cases hb
        obtain ⟨hgone, hsame⟩ := hleft (halone.drop _) (by simp [drop]) b
        rw [Action.noted, if_pos ⟨rfl, hne⟩, hgone, hsame]
        cases b with
        | added | updated => cases hb
        | removed => exact .removed
        | evicted => exact .evicted
      · have hkey : f.key ≠ e.key := by
          intro hkey
          rw [hkey, he] at hf
          exact hfe (Option.some.inj hf).symm
        have hseq : f.seq ≠ e.seq := fun hseq => hkey (halone hf hseq)
        rw [Action.noted, if_neg fun h => hseq h.1]
        exact .elsewhere hkey (ih (by rwa [drop, if_neg (Ne.symm hkey)]) (halone.drop _) hrest)

/-- What becomes of an entry that is written in a story from the start, if numbers are given out
once. -/
theorem life (h : Story (fun _ => none) xs g) (hd : ((writtenIn xs).map (·.seq)).Nodup)
    (he : e ∈ writtenIn xs) :
    Life e xs (decide (g e.key = some e)) (xs.foldl (Action.noted e.seq) .added) := by
  obtain ⟨birth, hmem, hbirth⟩ := mem_writtenIn.1 he
  obtain ⟨before, after, rfl⟩ := List.append_of_mem hmem
  rw [writtenIn_append, writtenIn_cons, if_pos hbirth, List.map_append, List.map_cons] at hd
  obtain ⟨-, hafter, hapart⟩ := List.nodup_append.1 hd
  have hbefore : ∀ f ∈ writtenIn before, f.seq ≠ e.seq := fun f hf =>
    hapart _ (List.mem_map_of_mem hf) _ List.mem_cons_self
  have hlater : ∀ f ∈ writtenIn after, f.seq ≠ e.seq := fun f hf hseq =>
    (List.nodup_cons.1 hafter).1 (hseq ▸ List.mem_map_of_mem hf)
  obtain ⟨g₁, hstart, hrest⟩ := h.of_append
  obtain ⟨hnot, hnone⟩ := hstart.left nofun hbefore
  rw [List.foldl_append, Action.foldl_noted_of_ne hnone, List.foldl_cons]
  cases hrest with
  | cons hx hend =>
    cases hx with
    | gone ha _ =>
      rw [hbirth] at ha
      cases ha
    | write =>
      refine .written hstart ?_
      have hnoted : Action.noted e.seq .added (e, .ofWrite (g₁ e.key).isSome) =
          .ofWrite (g₁ e.key).isSome := by
        cases (g₁ e.key).isSome <;> simp [Action.noted, Action.ofWrite]
      rw [hnoted]
      refine hend.fate (by simp [put]) (fun hk hseq => ?_) hlater _
      rw [put] at hk
      split at hk
      · assumption
      · exact absurd hseq (hnot hk)

end Story

end Tiles

end TileStore
