import TileStore.Scene

/-!
# Journals

Commands are carried out one after the other. After each, its notices are worked off, and whatever
can be noticed from outside goes into a journal: log lines, and each call of an observer with what
the observer sees of the session.

What observers see and do is given by an `Audience`. An observer may call back: it answers a call
with commands, which are carried out on the spot, before the next observer is told, and their own
notices may set off reactions again. A run allows so many reactions and no more, which bounds their
nesting: `carryOut` recurses on that bound.
-/

namespace TileStore

/-- One call of an observer. -/
structure Visit (ρ : Type) where
  /-- Which observer. -/
  observer : Nat
  entry : Entry
  action : Action
  /-- What the observer sees of the session. -/
  view : ρ

/-- What a journal records. -/
inductive Remark (ρ : Type) where
  | log (line : LogLine)
  | visit (v : Visit ρ)
  /-- A reaction ends with these answers. -/
  | reacted (replies : List Reply)

/-- Commands one after the other. They name owners as the scene does. -/
abbrev Script := List (Command String)

/-- What observers do. -/
structure Audience (ρ : Type) where
  /-- What an observer sees of a session when it is told of an entry. -/
  view : Session → Entry → ρ
  /-- The commands it calls back with, given the journal so far and the call. -/
  react : Array (Remark ρ) → Visit ρ → Option Script

/-- A run in progress. -/
structure Run (ρ : Type) where
  session : Session
  /-- How many reactions are still allowed. -/
  allowance : Nat := 0
  journal : Array (Remark ρ) := #[]
  /-- The answers to the commands of the present level. -/
  replies : Array Reply := #[]
  /-- What ended the run, if anything has. -/
  fault : Option Fault := none

namespace Run

variable {ρ : Type}

/-- Add to the journal. -/
def note (r : Run ρ) (x : Remark ρ) : Run ρ := { r with journal := r.journal.push x }

/-- Add an answer. -/
def reply (r : Run ρ) (x : Reply) : Run ρ := { r with replies := r.replies.push x }

/-- Run a computation of the session. -/
@[inline] def inSession {α : Type} (r : Run ρ) (m : Mutation Session α) :
    Except Fault α × Run ρ :=
  let (outcome, s) := m.result r.session
  (outcome, { r with session := s })

/-- Carry out a reaction one level down and record its answers. -/
def callBack (nested : Script → Run ρ → Run ρ) (cs : Script) (r : Run ρ) : Run ρ :=
  let r' := nested cs { r with allowance := r.allowance - 1, replies := #[] }
  { (if r'.fault.isNone then r'.note (.reacted r'.replies.toList) else r') with
    replies := r.replies }

/-- Call an observer, which may call back. -/
def visit (audience : Audience ρ) (nested : Script → Run ρ → Run ρ) (e : Entry) (a : Action)
    (r : Run ρ) (observer : Nat) : Run ρ :=
  if r.fault.isSome then r
  else
    let v : Visit ρ := ⟨observer, e, a, audience.view r.session e⟩
    let response := if 0 < r.allowance then audience.react r.journal v else none
    match response with
    | some cs => (r.note (.visit v)).callBack nested cs
    | none => r.note (.visit v)

/-- Work off a notice. Observers are told while counting is enabled. -/
def notice (audience : Audience ρ) (nested : Script → Run ρ → Run ρ) (r : Run ρ) (n : Notice) :
    Run ρ :=
  if r.fault.isSome then r
  else
    match n with
    | .log line => r.note (.log line)
    | .count h => { r with session.cache := r.session.cache.count h }
    | .tell e a =>
      let l := r.session.cache.ledger
      if l.counters.enabled then (List.range l.observers).foldl (visit audience nested e a) r
      else r

/-- Obey a command of one step and work off its notices. The answer is known before the first. -/
def step (audience : Audience ρ) (nested : Script → Run ρ → Run ρ) (r : Run ρ)
    (c : Command Owner) : Run ρ :=
  if r.fault.isSome then r
  else
    match r.inSession (Session.obey c) with
    | (.error f, r) => { r with fault := some f }
    | (.ok (x, notices), r) => notices.foldl (notice audience nested) (r.reply x)

/-- Carry out a command. Its owner is referred to until it is done, and its answer is the one to its
last step. -/
def command (audience : Audience ρ) (nested : Script → Run ρ → Run ρ) (r : Run ρ)
    (c : Command String) : Run ρ :=
  match c.resolve (r.session.scene.owners[·]?) with
  | none => r.reply .done
  | some c =>
    let held := c.owner?.toList
    let r' := c.steps.foldl (step audience nested)
      { r with session.scene := held.foldl Scene.retain r.session.scene, replies := #[] }
    { r' with
      session.scene := held.foldl Scene.release r'.session.scene
      replies := r.replies.push (r'.replies.back?.getD .done) }

/-- Carry out commands, with reactions nested at most so deep. -/
def carryOut (audience : Audience ρ) : Nat → Script → Run ρ → Run ρ
  | 0, cs, r => cs.foldl (command audience fun _ r => r) r
  | depth + 1, cs, r => cs.foldl (command audience (carryOut audience depth)) r

end Run

/-- Carry out one command in a session, with so many reactions allowed. -/
def Session.run {ρ : Type} (s : Session) (audience : Audience ρ) (allowance : Nat)
    (c : Command String) : Run ρ :=
  Run.carryOut audience allowance [c] { session := s, allowance := allowance }

end TileStore
