import TileStore.Cache
import TileStore.Proofs.Binary64

/-!
# Arguments of requests

Some arguments are refused: `Request.Refused` lists them, each with the rejection that reports it. The
lists of a batch say what belongs together by the places in them: `Aligned` tells which tiles they stand
for, the first position with the first payload and the first cost, and so on. A batch is taken for these
tiles and no others, `Cache.pairUp_eq_ok_iff`, and refused if there are none because the lists are of
different lengths, `Cache.pairUp_eq_error_iff`. So what is shown of a batch starts from
`Cache.addBatch_eq`.
-/

namespace TileStore

/-! ### What is refused -/

/-- A request is refused for a bad argument. Of a batch the tiles are counted before the costs. -/
inductive Request.Refused {ο ι : Type} : Request ο ι → Rejection → Prop where
  | capacity : Refused (.setCapacity 0) (.capacity 0)
  | threshold {t : Binary64} : t.Outside → Refused (.setThreshold t) (.threshold t)
  | tiles {o : ο} {points : List Position} {payloads : List Payload}
      {costs : Option (List Binary64)} : payloads.length ≠ points.length →
    Refused (.addBatch o points payloads costs) (.lengths "tiles" points.length payloads.length)
  | costs {o : ο} {points : List Position} {payloads : List Payload} {costs : List Binary64} :
    payloads.length = points.length → costs.length ≠ points.length →
    Refused (.addBatch o points payloads (some costs)) (.lengths "costs" points.length costs.length)

/-- What a request that may be refused is answered with. -/
inductive Request.Replies {ο ι : Type} (q : Request ο ι) : Reply → Prop where
  | rejected {e : Rejection} : q.Refused e → Replies q (.rejected e)
  | accepted : (∀ e, ¬q.Refused e) → Replies q .accepted

theorem Request.Replies.eq_accepted {ο ι : Type} {q : Request ο ι} {x : Reply} (h : q.Replies x)
    (hq : ∀ e, ¬q.Refused e) : x = .accepted := by
  cases h with
  | rejected he => exact absurd he (hq _)
  | accepted => rfl

theorem Request.replies_setCapacity {ο ι : Type} (bytes : UInt64) :
    (setCapacity bytes : Request ο ι).Replies
      (if bytes = 0 then .rejected (.capacity bytes) else .accepted) := by
  by_cases hzero : bytes = 0
  · rw [if_pos hzero, hzero]
    exact .rejected .capacity
  · rw [if_neg hzero]
    refine .accepted fun e h => ?_
    cases h
    exact hzero rfl

theorem Request.replies_setThreshold {ο ι : Type} (t : Binary64) :
    (setThreshold t : Request ο ι).Replies
      (if t.isFraction then .accepted else .rejected (.threshold t)) := by
  by_cases hfraction : t.isFraction
  · rw [if_pos hfraction]
    refine .accepted fun e h => ?_
    cases h with
    | threshold houtside => exact Binary64.isFraction_iff_not_outside.1 hfraction houtside
  · rw [if_neg hfraction]
    refine .rejected (.threshold (Classical.not_not.1 fun hinside => hfraction ?_))
    exact Binary64.isFraction_iff_not_outside.2 hinside

/-! ### The tiles of a batch -/

variable {points : List Position} {payloads : List Payload} {costs : Option (List Binary64)}
  {tiles tiles' : List (Position × Payload × Option Binary64)} {e : Rejection}

/-- The cost of each tile. Without costs no tile has one. -/
def eachCost (points : List Position) (costs : Option (List Binary64)) : List (Option Binary64) :=
  costs.elim (points.map fun _ => none) (·.map some)

theorem length_eachCost (hc : ∀ cs ∈ costs, cs.length = points.length) :
    (eachCost points costs).length = points.length := by
  cases costs with
  | none => exact List.length_map _
  | some cs => exact (List.length_map _).trans (hc cs rfl)

theorem getLast?_eachCost {cost : Option Binary64} (h : (eachCost points costs).getLast? = some cost) :
    cost = costs.bind (·.getLast?) := by
  cases costs with
  | none =>
    rw [eachCost, Option.elim_none, List.getLast?_map] at h
    obtain ⟨-, -, rfl⟩ := Option.map_eq_some_iff.1 h
    rfl
  | some cs =>
    rw [eachCost, Option.elim_some, List.getLast?_map] at h
    obtain ⟨last, hlast, rfl⟩ := Option.map_eq_some_iff.1 h
    exact hlast.symm

/-- What stands in one place of the lists belongs to one tile. -/
structure Aligned (points : List Position) (payloads : List Payload) (costs : Option (List Binary64))
    (tiles : List (Position × Payload × Option Binary64)) : Prop where
  points_eq : tiles.map (·.1) = points
  payloads_eq : tiles.map (·.2.1) = payloads
  costs_eq : tiles.map (·.2.2) = eachCost points costs

/-- The tiles that the lists stand for, if they are equally long. -/
def aligned (points : List Position) (payloads : List Payload) (costs : Option (List Binary64)) :
    List (Position × Payload × Option Binary64) :=
  if payloads.length = points.length ∧ ∀ cs ∈ costs, cs.length = points.length then
    points.zip (payloads.zip (eachCost points costs))
  else []

namespace Aligned

theorem length_tiles (h : Aligned points payloads costs tiles) : tiles.length = points.length := by
  rw [← h.points_eq, List.length_map]

theorem length_payloads (h : Aligned points payloads costs tiles) :
    payloads.length = points.length := by
  rw [← h.payloads_eq, ← h.points_eq, List.length_map, List.length_map]

theorem length_costs (h : Aligned points payloads costs tiles) :
    ∀ cs ∈ costs, cs.length = points.length := by
  rintro cs rfl
  have hlength := congrArg List.length h.costs_eq
  rw [eachCost, Option.elim_some, List.length_map, List.length_map] at hlength
  rw [← hlength, h.length_tiles]

theorem eq_zip (h : Aligned points payloads costs tiles) :
    tiles = points.zip (payloads.zip (eachCost points costs)) := by
  rw [← h.costs_eq, ← h.payloads_eq]
  conv_rhs => rw [← h.points_eq]
  rw [List.zip_map', List.zip_map']
  exact (List.map_id tiles).symm

/-- The lists stand for one list of tiles only. -/
theorem unique (h : Aligned points payloads costs tiles) (h' : Aligned points payloads costs tiles') :
    tiles' = tiles := by
  rw [h.eq_zip, h'.eq_zip]

theorem aligned_eq (h : Aligned points payloads costs tiles) :
    aligned points payloads costs = tiles := by
  rw [aligned, if_pos ⟨h.length_payloads, h.length_costs⟩, h.eq_zip]

/-- The last of the tiles is what stands last in each list. -/
theorem of_getLast? {t : Position × Payload × Option Binary64}
    (h : Aligned points payloads costs tiles) (ht : tiles.getLast? = some t) :
    points.getLast? = some t.1 ∧ payloads.getLast? = some t.2.1 ∧
      t.2.2 = costs.bind (·.getLast?) := by
  have hcost : (eachCost points costs).getLast? = some t.2.2 := by
    rw [← h.costs_eq, List.getLast?_map, ht, Option.map_some]
  refine ⟨?_, ?_, getLast?_eachCost hcost⟩
  · rw [← h.points_eq, List.getLast?_map, ht, Option.map_some]
  · rw [← h.payloads_eq, List.getLast?_map, ht, Option.map_some]

theorem not_refused {ο ι : Type} {o : ο} (h : Aligned points payloads costs tiles) :
    ¬(.addBatch o points payloads costs : Request ο ι).Refused e := by
  intro he
  cases he with
  | tiles hne => exact hne h.length_payloads
  | costs _ hne => exact hne (h.length_costs _ rfl)

end Aligned

theorem aligned_zip (hp : payloads.length = points.length)
    (hc : ∀ cs ∈ costs, cs.length = points.length) :
    Aligned points payloads costs (points.zip (payloads.zip (eachCost points costs))) := by
  have hlength := length_eachCost hc
  generalize hcs : eachCost points costs = cs at hlength ⊢
  have hpair : (payloads.zip cs).length = points.length := by
    rw [List.length_zip, hlength, hp, Nat.min_self]
  have hback : (points.zip (payloads.zip cs)).map (·.2) = payloads.zip cs :=
    List.map_snd_zip hpair.le
  constructor
  case points_eq => exact List.map_fst_zip hpair.ge
  case payloads_eq =>
    calc (points.zip (payloads.zip cs)).map (·.2.1)
      _ = ((points.zip (payloads.zip cs)).map (·.2)).map (·.1) := List.map_map.symm
      _ = payloads := by rw [hback, List.map_fst_zip (hp.trans hlength.symm).le]
  case costs_eq =>
    calc (points.zip (payloads.zip cs)).map (·.2.2)
      _ = ((points.zip (payloads.zip cs)).map (·.2)).map (·.2) := List.map_map.symm
      _ = cs := by rw [hback, List.map_snd_zip (hlength.trans hp.symm).le]
      _ = _ := hcs.symm

/-- Lists of the same length stand for tiles, and others do not. -/
theorem exists_aligned_iff : (∃ tiles, Aligned points payloads costs tiles) ↔
    payloads.length = points.length ∧ ∀ cs ∈ costs, cs.length = points.length :=
  ⟨fun ⟨_, h⟩ => ⟨h.length_payloads, h.length_costs⟩, fun ⟨hp, hc⟩ => ⟨_, aligned_zip hp hc⟩⟩

/-! ### Batches -/

/-- Either the lists of a batch stand for tiles or the batch is refused. -/
theorem aligned_or_refused {ο : Type} (ι : Type) (o : ο) (points : List Position)
    (payloads : List Payload) (costs : Option (List Binary64)) :
    (∃ tiles, Aligned points payloads costs tiles) ∨
      ∃ e, (.addBatch o points payloads costs : Request ο ι).Refused e := by
  rw [exists_aligned_iff]
  by_cases hp : payloads.length = points.length
  · cases costs with
    | none => exact .inl ⟨hp, nofun⟩
    | some cs =>
      by_cases hc : cs.length = points.length
      · exact .inl ⟨hp, by rintro _ ⟨⟩; exact hc⟩
      · exact .inr ⟨_, .costs hp hc⟩
  · exact .inr ⟨_, .tiles hp⟩

/-- Lists that are refused stand for no tiles. -/
theorem Request.Refused.aligned_eq_nil {ο ι : Type} {o : ο}
    (h : (.addBatch o points payloads costs : Request ο ι).Refused e) :
    aligned points payloads costs = [] := by
  cases h with
  | tiles hne => exact if_neg fun h => hne h.1
  | costs _ hne => exact if_neg fun h => hne (h.2 _ rfl)

theorem aligned_or_eq_nil (points : List Position) (payloads : List Payload)
    (costs : Option (List Binary64)) :
    Aligned points payloads costs (aligned points payloads costs) ∨
      aligned points payloads costs = [] := by
  obtain ⟨tiles, h⟩ | ⟨e, h⟩ := aligned_or_refused Unit () points payloads costs
  · exact .inl (h.aligned_eq.symm ▸ h)
  · exact .inr h.aligned_eq_nil

namespace Cache

theorem pairUp_of_aligned (h : Aligned points payloads costs tiles) :
    pairUp points payloads costs = .ok tiles := by
  rw [h.eq_zip]
  unfold pairUp checkLength eachCost
  rw [if_pos h.length_payloads.symm]
  cases costs with
  | none =>
    have hnone : points.map (fun _ => (none : Option Binary64)) = payloads.map fun _ => none := by
      rw [List.map_const', List.map_const', h.length_payloads]
    refine congrArg Except.ok ?_
    rw [Option.elim_none, hnone, ← List.map_prod_left_eq_zip]
  | some cs =>
    dsimp only
    rw [if_pos (h.length_costs cs rfl).symm]
    rfl

theorem pairUp_of_refused {ο ι : Type} {o : ο}
    (h : (.addBatch o points payloads costs : Request ο ι).Refused e) :
    pairUp points payloads costs = .error e := by
  unfold pairUp checkLength
  cases h with
  | tiles hne =>
    rw [if_neg (Ne.symm hne)]
    rfl
  | costs heq hne =>
    dsimp only
    rw [if_pos heq.symm, if_neg (Ne.symm hne)]
    rfl

/-- A batch is taken for the tiles that its lists stand for. -/
theorem pairUp_eq_ok_iff :
    pairUp points payloads costs = .ok tiles ↔ Aligned points payloads costs tiles := by
  refine ⟨fun h => ?_, pairUp_of_aligned⟩
  obtain ⟨tiles', htiles⟩ | ⟨e, he⟩ := aligned_or_refused Unit () points payloads costs
  · rw [pairUp_of_aligned htiles] at h
    cases h
    exact htiles
  · rw [pairUp_of_refused he] at h
    cases h

/-- A batch is refused if its lists stand for no tiles. -/
theorem pairUp_eq_error_iff {ο ι : Type} (o : ο) :
    pairUp points payloads costs = .error e ↔
      (.addBatch o points payloads costs : Request ο ι).Refused e := by
  refine ⟨fun h => ?_, pairUp_of_refused⟩
  obtain ⟨tiles, htiles⟩ | ⟨e', he⟩ := aligned_or_refused ι o points payloads costs
  · rw [pairUp_of_aligned htiles] at h
    cases h
  · rw [pairUp_of_refused he] at h
    cases h
    exact he

/-- A batch is refused, or the tiles that its lists stand for are cached. -/
theorem addBatch_eq (m : Moment) (owner : Owner) (points : List Position) (payloads : List Payload)
    (costs : Option (List Binary64)) :
    (∃ e, (.addBatch owner points payloads costs : Request Owner Identity).Refused e ∧
      addBatch m owner points payloads costs = pure (.error e)) ∨
    ∃ tiles, Aligned points payloads costs tiles ∧
      addBatch m owner points payloads costs =
        .ok <$> byLayout (Linked.addBatch m owner tiles) (Sharded.addBatch m owner tiles) := by
  obtain ⟨tiles, h⟩ | ⟨e, h⟩ := aligned_or_refused Identity owner points payloads costs
  · exact .inr ⟨tiles, h, by rw [addBatch, pairUp_of_aligned h]⟩
  · exact .inl ⟨e, h, by rw [addBatch, pairUp_of_refused h]⟩

end Cache

end TileStore
