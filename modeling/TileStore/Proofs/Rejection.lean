import TileStore.Proofs.Agreement
import TileStore.Proofs.Arguments

/-!
# What is refused, and that it changes nothing

`Settings.Refused` and `Request.Refused` list the arguments that are refused, each with the rejection
that reports it: where two are bad at once, they say which of them is reported. No other settings are
refused and no other request: `Cache.build_eq_error_iff`, `Request.perform_rejected_iff`.

A refused request leaves the cache as it is in every part, and no notices, so nothing is counted,
logged or told: `Request.Refused.perform`. In a run it leaves no trace but its answer. Whatever comes
afterwards goes as if it had not been asked, since commands do not read the answers before them:
`Run.carryOut_refused`, with observers that may call back.

The main result is `rejections`.
-/

namespace TileStore

open Cache (Reaches HasRoom)

variable {e : Rejection}

/-! ### Settings -/

/-- Settings are refused for the first of their faults. -/
inductive Settings.Refused (s : Settings) : Rejection → Prop where
  | capacity : s.capacity = 0 → Refused s (.capacity 0)
  | threshold : s.capacity ≠ 0 → s.threshold.Outside → Refused s (.threshold s.threshold)
  | shards : s.capacity ≠ 0 → ¬s.threshold.Outside → s.shards = 0 → Refused s (.shards 0)
  | overhead : s.capacity ≠ 0 → ¬s.threshold.Outside → s.shards ≠ 0 → s.overhead = 0 →
    Refused s .overhead

theorem checkThreshold_eq (t : Binary64) [Decidable t.Outside] :
    checkThreshold t = if t.Outside then .error (.threshold t) else .ok () := by
  unfold checkThreshold
  by_cases h : t.Outside
  · rw [if_pos h, if_neg fun hf => Binary64.isFraction_iff_not_outside.1 hf h]
  · rw [if_neg h, if_pos (Binary64.isFraction_iff_not_outside.2 h)]

/-- The faults are looked for in this order. -/
theorem Settings.validate_eq (s : Settings) [Decidable s.threshold.Outside] :
    s.validate =
      if s.capacity = 0 then .error (.capacity s.capacity)
      else if s.threshold.Outside then .error (.threshold s.threshold)
      else if s.shards = 0 then .error (.shards s.shards)
      else if s.overhead = 0 then .error .overhead
      else .ok () := by
  unfold validate checkCapacity
  rw [checkThreshold_eq]
  by_cases hc : s.capacity = 0
  · rw [if_pos hc, if_pos hc]
    rfl
  by_cases ht : s.threshold.Outside
  · rw [if_neg hc, if_neg hc, if_pos ht, if_pos ht]
    rfl
  by_cases hs : s.shards = 0
  · rw [if_neg hc, if_neg hc, if_neg ht, if_neg ht, if_pos hs, if_pos hs]
    rfl
  · rw [if_neg hc, if_neg hc, if_neg ht, if_neg ht, if_neg hs, if_neg hs]
    rfl

theorem Settings.validate_eq_error_iff (s : Settings) : s.validate = .error e ↔ s.Refused e := by
  classical
  rw [validate_eq]
  constructor
  · intro h
    split at h
    · next hc =>
      cases h
      exact hc ▸ .capacity hc
    · next hc =>
      split at h
      · next ht =>
        cases h
        exact .threshold hc ht
      · next ht =>
        split at h
        · next hs =>
          cases h
          exact hs ▸ .shards hc ht hs
        · next hs =>
          split at h
          · next ho =>
            cases h
            exact .overhead hc ht hs ho
          · cases h
  · intro h
    cases h with
    | capacity hc => rw [if_pos hc, hc]
    | threshold hc ht => rw [if_neg hc, if_pos ht]
    | shards hc ht hs => rw [if_neg hc, if_neg ht, if_pos hs, hs]
    | overhead hc ht hs ho => rw [if_neg hc, if_neg ht, if_neg hs, if_pos ho]

/-- Building fails exactly if the settings are refused. -/
theorem Cache.build_eq_error_iff (s : Settings) (observers : Nat) :
    build s observers = .error e ↔ s.Refused e := by
  rw [← s.validate_eq_error_iff]
  unfold build
  rcases s.validate with e' | _
  · exact ⟨fun h => by cases h; rfl, fun h => by cases h; rfl⟩
  · exact ⟨nofun, nofun⟩

/-! ### Requests -/

namespace Request

variable {ο ο' ι ι' : Type} {m : Moment} {c c' : Cache} {x : Reply} {ns : List Notice}

/-- How owners and images are named has nothing to do with it. -/
theorem Refused.resolve {q : Request ο ι} {q' : Request ο' ι'} {owner? : ο → Option ο'}
    {image? : ι → Option ι'} (h : q.Refused e) (hq : q.resolve owner? image? = some q') :
    q'.Refused e := by
  cases h with
  | capacity =>
    cases hq
    exact .capacity
  | threshold ht =>
    cases hq
    exact .threshold ht
  | tiles hne =>
    obtain ⟨_, _, rfl⟩ := Option.map_eq_some_iff.1 hq
    exact .tiles hne
  | costs heq hne =>
    obtain ⟨_, _, rfl⟩ := Option.map_eq_some_iff.1 hq
    exact .costs heq hne

/-- A request that is refused names no image. -/
theorem Refused.resolve_some {q : Request ο ι} (h : q.Refused e) (image? : ι → Option ι') :
    ∃ q' : Request ο ι', q.resolve some image? = some q' := by
  cases h <;> exact ⟨_, rfl⟩

/-- A refused request is answered with its rejection. The cache is what it was, and nothing is to be
done afterwards. -/
theorem Refused.perform {q : Request Owner Identity} (h : q.Refused e) (m : Moment) (c : Cache) :
    (q.perform m).result c = (.ok (.rejected e, []), c) := by
  cases q with
  | addBatch o points payloads costs =>
    rw [Request.perform, Mutation.result_map, Cache.addBatch, Cache.pairUp_of_refused h]
    rfl
  | setCapacity bytes =>
    cases h
    rfl
  | setThreshold t =>
    cases h with
    | threshold ht =>
      rw [Request.perform, Mutation.result_map, Cache.setThreshold, Mutation.result_bind,
        Mutation.result_get]
      dsimp only
      rw [Ledger.setThreshold_eq, if_neg fun hf => Binary64.isFraction_iff_not_outside.1 hf ht]
      rfl
  | _ => cases h

/-- Nothing but a refused request is answered with a rejection. -/
theorem perform_rejected (q : Request Owner Identity) (m : Moment) (c : Cache) :
    (q.perform m).Meets c False fun x _ => ∀ e, x.1 = .rejected e → q.Refused e := by
  cases q with
  | addBatch owner points payloads costs =>
    refine Mutation.meets_map.2 ?_
    obtain ⟨e, hrefused, hbatch⟩ | ⟨tiles, -, hbatch⟩ :=
      Cache.addBatch_eq m owner points payloads costs
    · rw [hbatch]
      rintro _ ⟨⟩
      exact hrefused
    · rw [hbatch]
      exact Mutation.meets_map.2 ((Mutation.meets_any _ _).imp fun _ _ _ => nofun)
  | setCapacity bytes =>
    refine Mutation.meets_map.2 ?_
    unfold Cache.setCapacity
    rw [Mutation.meets_bind, Mutation.meets_get, Ledger.setCapacity_eq]
    by_cases hzero : bytes = 0
    · rw [if_pos hzero, hzero]
      rintro _ ⟨⟩
      exact .capacity
    · rw [if_neg hzero, Mutation.meets_bind, Mutation.meets_set]
      dsimp only
      split
      · exact Mutation.meets_bind.2 ((Mutation.meets_any _ _).imp fun _ _ _ => nofun)
      · exact nofun
  | setThreshold t =>
    refine Mutation.meets_map.2 ?_
    unfold Cache.setThreshold
    rw [Mutation.meets_bind, Mutation.meets_get, Ledger.setThreshold_eq]
    by_cases hf : t.isFraction
    · rw [if_pos hf]
      exact nofun
    · rw [if_neg hf]
      rintro _ ⟨⟩
      refine .threshold (Classical.not_not.1 fun hin => hf ?_)
      exact Binary64.isFraction_iff_not_outside.2 hin
  | add | remove | removeImage | flush | relieve | get | getAll =>
    exact Mutation.meets_bind.2 ((Mutation.meets_any _ _).imp fun _ _ _ => nofun)
  | tilesOf | contains | enable | disable | reset | report | list => exact nofun

/-- An answer is a rejection exactly if the request is refused. -/
theorem perform_rejected_iff {q : Request Owner Identity}
    (h : (q.perform m).result c = (.ok (x, ns), c')) : x = .rejected e ↔ q.Refused e := by
  refine ⟨(perform_rejected q m c).of_ok h e, fun hq => ?_⟩
  rw [hq.perform m c] at h
  cases h
  rfl

end Request

/-! ### Runs -/

/-- To refer to an object and then no longer is to do nothing. -/
theorem Scene.release_retain (s : Scene) (o : Owner) : (s.retain o).release o = s := by
  have hreferences : (s.references.modify o.number (· + 1)).modify o.number (· - 1) =
      s.references := by
    apply Array.ext_getElem?
    intro i
    rw [Array.getElem?_modify, Array.getElem?_modify]
    split
    · cases s.references[i]? <;> rfl
    · rfl
  rw [release, retain, hreferences]

namespace Run

variable {ρ : Type} {audience : Audience ρ} {nested : Script → Run ρ → Run ρ}

/-- The run with other answers up to now. -/
def answering (r : Run ρ) (xs : Array Reply) : Run ρ := { r with replies := xs }

/-- A command adds one answer and does not read those before it. -/
theorem exists_command_answering (audience : Audience ρ) (nested : Script → Run ρ → Run ρ)
    (r : Run ρ) (c : Command String) :
    ∃ x, ∀ xs, command audience nested (r.answering xs) c =
      (command audience nested r c).answering (xs.push x) := by
  rcases hc : c.resolve (r.session.scene.owners[·]?) with _ | c'
  · refine ⟨.done, fun xs => ?_⟩
    have hc' : c.resolve ((r.answering xs).session.scene.owners[·]?) = none := hc
    rw [command, command, hc, hc']
    rfl
  · let r' := c'.steps.foldl (step audience nested)
      { r with
        session.scene := c'.owner?.toList.foldl Scene.retain r.session.scene, replies := #[] }
    refine ⟨r'.replies.back?.getD .done, fun xs => ?_⟩
    have hc' : c.resolve ((r.answering xs).session.scene.owners[·]?) = some c' := hc
    rw [command, command, hc, hc']
    rfl

/-- So the answers of a script come after those before it and do not depend on them. -/
theorem exists_commands_answering (audience : Audience ρ) (nested : Script → Run ρ → Run ρ)
    (cs : Script) (r : Run ρ) :
    ∃ later, ∀ xs, cs.foldl (command audience nested) (r.answering xs) =
      (cs.foldl (command audience nested) r).answering (xs ++ later) := by
  induction cs generalizing r with
  | nil => exact ⟨#[], fun xs => by rw [Array.append_empty]; rfl⟩
  | cons c cs ih =>
    obtain ⟨x, hx⟩ := exists_command_answering audience nested r c
    obtain ⟨later, hlater⟩ := ih (command audience nested r c)
    refine ⟨#[x] ++ later, fun xs => ?_⟩
    rw [List.foldl_cons, hx, hlater, List.foldl_cons, Array.push_eq_append, Array.append_assoc]

theorem step_refused {r : Run ρ} {q : Request Owner Subject} (hq : q.Refused e)
    (hf : r.fault = none) :
    step audience nested r (.request q) = r.reply (.rejected e) := by
  obtain ⟨q', hq'⟩ := hq.resolve_some r.session.scene.image?
  have hobey := Session.result_request (s := r.session) hq'
  rw [(hq.resolve hq').perform] at hobey
  unfold step inSession
  rw [if_neg (by simp [hf]), hobey]
  rfl

/-- A refused request adds its rejection to the answers, and that is all. -/
theorem command_refused {r : Run ρ} {q : Request String Subject} (hq : q.Refused e)
    (hf : r.fault = none) (howner : (q.resolve (r.session.scene.owners[·]?) some).isSome) :
    command audience nested r (.request q) = r.reply (.rejected e) := by
  obtain ⟨q', hq'⟩ := Option.isSome_iff_exists.1 howner
  have hresolve : (Command.request q).resolve (r.session.scene.owners[·]?) = some (.request q') :=
    congrArg (Option.map Command.request) hq'
  have hrestored : q'.owner?.toList.foldl Scene.release
      (q'.owner?.toList.foldl Scene.retain r.session.scene) = r.session.scene := by
    cases q'.owner? with
    | none => rfl
    | some o => exact Scene.release_retain _ o
  unfold command
  rw [hresolve]
  simp only [Command.steps, Command.owner?, List.foldl_cons, List.foldl_nil]
  rw [step_refused (hq.resolve hq') (by exact hf)]
  unfold reply
  dsimp only
  rw [hrestored]
  rfl

/-- A run works its commands off one after the other, with some way to carry out what observers call
back with. -/
theorem exists_carryOut_eq (audience : Audience ρ) (depth : Nat) :
    ∃ nested, ∀ cs r, carryOut audience depth cs r = cs.foldl (command audience nested) r := by
  cases depth with
  | zero => exact ⟨_, fun _ _ => rfl⟩
  | succ depth => exact ⟨_, fun _ _ => rfl⟩

/-- A run in which a refused request is left out goes the same way, but for the one answer. -/
theorem carryOut_refused (audience : Audience ρ) (depth : Nat) (before after : Script) (r : Run ρ)
    {q : Request String Subject} (hq : q.Refused e) :
    let r₁ := carryOut audience depth before r
    r₁.fault = none → (q.resolve (r₁.session.scene.owners[·]?) some).isSome →
    ∃ later, (carryOut audience depth (before ++ after) r).replies = r₁.replies ++ later ∧
      carryOut audience depth (before ++ .request q :: after) r =
        (carryOut audience depth (before ++ after) r).answering
          (r₁.replies.push (.rejected e) ++ later) := by
  obtain ⟨nested, hnested⟩ := exists_carryOut_eq audience depth
  simp only [hnested, List.foldl_append, List.foldl_cons]
  intro hf howner
  generalize before.foldl (command audience nested) r = r₁ at *
  obtain ⟨later, hlater⟩ := exists_commands_answering audience nested after r₁
  refine ⟨later, ?_, ?_⟩
  · exact congrArg Run.replies (hlater r₁.replies)
  · rw [command_refused hq hf howner]
    exact hlater _

end Run

/-! ### The main result -/

/-- Building a cache fails exactly if the settings are refused, and reports the first of their faults.
A refused request is answered with its rejection, leaves the cache as it is and nothing to be done;
no other request is answered with a rejection, and while there is room every request is answered. A
run from which a refused request is left out goes the same way, but for the one answer. -/
theorem rejections {ρ : Type} (audience : Audience ρ) (depth : Nat) :
    (∀ (s : Settings) (observers : Nat) (e : Rejection),
      Cache.build s observers = .error e ↔ s.Refused e) ∧
    (∀ (m : Moment) (c : Cache) (q : Request Owner Identity) (e : Rejection),
      (q.Refused e → (q.perform m).result c = (.ok (.rejected e, []), c)) ∧
      (∀ x ns c', (q.perform m).result c = (.ok (x, ns), c') → (x = .rejected e ↔ q.Refused e)) ∧
      (Reaches HasRoom c → c.HasRoom m q →
        ∃ x ns c', (q.perform m).result c = (.ok (x, ns), c'))) ∧
    ∀ (before after : Script) (r : Run ρ) (q : Request String Subject) (e : Rejection),
      let r₁ := Run.carryOut audience depth before r
      q.Refused e → r₁.fault = none →
      (q.resolve (r₁.session.scene.owners[·]?) some).isSome →
      ∃ later, (Run.carryOut audience depth (before ++ after) r).replies = r₁.replies ++ later ∧
        Run.carryOut audience depth (before ++ .request q :: after) r =
          (Run.carryOut audience depth (before ++ after) r).answering
            (r₁.replies.push (.rejected e) ++ later) := by
  refine ⟨fun s observers e => Cache.build_eq_error_iff s observers, fun m c q e => ⟨?_, ?_, ?_⟩, ?_⟩
  · exact fun hq => hq.perform m c
  · exact fun x ns c' h => Request.perform_rejected_iff h
  · intro hc hroom
    obtain ⟨⟨x, ns⟩, c', hx, -⟩ := hc.answers hroom
    exact ⟨x, ns, c', hx⟩
  · exact fun before after r q e hq hf howner =>
      Run.carryOut_refused audience depth before after r hq hf howner

/-- A batch without a tile for its position and without a cost for it, asked between two requests:
the missing tile is reported. A threshold that is no number is refused. -/
theorem rejections_both_lengths :
    let s : Settings := { layout := .sharded, diagnostics := true }
    let scene : Scene := { owners := ({} : Std.TreeMap String Owner).insert "a" ⟨0, .hashed 1⟩ }
    let audience : Audience Unit := { view _ _ := (), react _ _ := none }
    let m : Moment := ⟨0, fun _ => true⟩
    let before : Script := [.request (.add "a" .origin ⟨⟨8, 100, 1⟩, 0⟩ none)]
    let after : Script := [.request .list]
    let batch : Request String Subject := .addBatch "a" [.origin] [] (some [])
    let r : Run Unit := { session := ⟨scene, Cache.new s 1⟩ }
    let r₁ := Run.carryOut audience 0 before r
    (batch.Refused (.lengths "tiles" 1 0) ∧ r₁.fault = none ∧
      ∃ later, (Run.carryOut audience 0 (before ++ after) r).replies = r₁.replies ++ later ∧
        Run.carryOut audience 0 (before ++ .request batch :: after) r =
          (Run.carryOut audience 0 (before ++ after) r).answering
            (r₁.replies.push (.rejected (.lengths "tiles" 1 0)) ++ later)) ∧
    (Binary64.nan.Outside ∧ ((Request.setThreshold .nan).perform m).result r₁.session.cache =
      (.ok (.rejected (.threshold .nan), []), r₁.session.cache)) ∧
    Cache.build { s with threshold := .nan, shards := 0 } 1 = .error (.threshold .nan) ∧
    ∃ x ns c', ((Request.list).perform m).result (Cache.new s 1) = (.ok (x, ns), c') := by
  intro s scene audience m before after batch r r₁
  obtain ⟨hbuild, hperform, hrun⟩ := rejections audience 0
  have hbatch : batch.Refused (.lengths "tiles" 1 0) := .tiles (by decide)
  have hnan : Binary64.nan.Outside := .inl rfl
  have hfault : r₁.fault = none := Option.isNone_iff_eq_none.1 (by decide +kernel)
  refine ⟨⟨hbatch, hfault, ?_⟩, ⟨hnan, ?_⟩, ?_, ?_⟩
  · exact hrun before after r batch _ hbatch hfault (by decide +kernel)
  · exact (hperform m _ (.setThreshold .nan) _).1 (.threshold hnan)
  · exact (hbuild { s with threshold := .nan, shards := 0 } 1 _).2 (.threshold (by decide) hnan)
  · have hbuilt : Cache.build s 1 = .ok (Cache.new s 1) := rfl
    exact (hperform m (Cache.new s 1) .list .overhead).2.2 (.built hbuilt) trivial

end TileStore
