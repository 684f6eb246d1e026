import TileStore.Cache

/-!
# Scenes and sessions

A scene is the world around a cache: image objects under names, references that keep some of them
alive, entries somebody kept, and a clock. Image objects are counted references: an object is gone
when nothing refers to it any more. A session is a scene with a cache, and a `Command` is one
thing that can be done in it; commands about the cache are requests that name owners and images as
the scene does. Whoever caches a tile refers to its owner until the command is done, so the owner
is looked up once, at the start.

There is one thread. Steps are taken one after the other, a request is one step whatever locks it would
take, and while it is answered neither the clock moves nor an object goes: `Scene.moment`. Observers call
back when its changes are made, not before. Races between threads, what becomes of them and the figures
that are read while others change them are left out.
-/

namespace TileStore

open Std (TreeMap)

/-! ### Scenes -/

/-- The world around a cache. -/
structure Scene where
  /-- Microseconds since the cache was built; the clock can be set back. -/
  clock : Int := 0
  /-- How many references there are to each image object ever made. -/
  references : Array Nat := #[]
  /-- The object that a name stands for now. -/
  owners : TreeMap String Owner := {}
  /-- The identity that a name stood for last. -/
  identities : TreeMap String Identity := {}
  /-- References to objects got from the cache. -/
  holds : TreeMap String Owner := {}
  /-- Entries got from the cache. -/
  kept : TreeMap String Entry := {}

/-- How a command names an image. -/
inductive Subject where
  /-- By the name of an object, even of one that is gone. -/
  | named (name : String)
  | given (image : Identity)

namespace Scene

/-- The world as a call on the cache sees it. -/
def moment (s : Scene) : Moment where
  now := s.clock.toNat / 1000
  alive n := 0 < s.references[n]?.getD 0

/-- Add a reference to an object. -/
def retain (s : Scene) (o : Owner) : Scene :=
  { s with references := s.references.modify o.number (· + 1) }

/-- Take away a reference. -/
def release (s : Scene) (o : Owner) : Scene :=
  { s with references := s.references.modify o.number (· - 1) }

/-- Take away the reference in a table, if there is one. -/
def releaseFrom (s : Scene) (t : TreeMap String Owner) (name : String) : Scene :=
  match t[name]? with
  | some o => s.release o
  | none => s

/-- Make an object under a name, in place of the one that had it. -/
def adopt (s : Scene) (name : String) (image : Identity) : Scene :=
  let o : Owner := ⟨s.references.size, image⟩
  let s := s.releaseFrom s.owners name
  { s with
    references := s.references.push 1
    owners := s.owners.insert name o
    identities := s.identities.insert name image }

/-- Drop the object under a name. -/
def drop (s : Scene) (name : String) : Scene :=
  { s.releaseFrom s.owners name with owners := s.owners.erase name }

/-- Keep an object alive under a name. -/
def hold (s : Scene) (name : String) (o : Owner) : Scene :=
  let s := (s.retain o).releaseFrom s.holds name
  { s with holds := s.holds.insert name o }

/-- Let go of an object kept alive under a name. -/
def letGo (s : Scene) (name : String) : Scene :=
  { s.releaseFrom s.holds name with holds := s.holds.erase name }

/-- Keep an entry under a name. -/
def keep (s : Scene) (name : String) (e : Entry) : Scene := { s with kept := s.kept.insert name e }

/-- The identity that a command means. -/
def image? (s : Scene) : Subject → Option Identity
  | .named name => s.identities[name]?
  | .given image => some image

end Scene

/-! ### Sessions -/

/-- A scene with a cache in it. -/
structure Session where
  scene : Scene := {}
  cache : Cache

/-- Something to do in a session. Owners are named by `ο`. -/
inductive Command (ο : Type) where
  /-- Make an image object. -/
  | adopt (name : String) (image : Identity)
  | drop (name : String)
  /-- Look up a tile and keep its owner alive. -/
  | hold (image : Subject) (p : Position) (as : String)
  | letGo (as : String)
  /-- Set the clock forward, or back. -/
  | advance (microseconds : Int)
  /-- Look up a tile and keep its entry. -/
  | keep (image : Subject) (p : Position) (as : String)
  /-- See a kept entry. -/
  | revisit (as : String)
  | request (r : Request ο Subject)
  /-- Cache several tiles one after the other. -/
  | addEach (owner : ο) (tiles : List (Position × Payload × Option Binary64))
  /-- A command that could not be formed. -/
  | malformed (r : Rejection)

namespace Command

/-- The command with its owner looked up; none if it is unknown. -/
def resolve (owner? : String → Option Owner) : Command String → Option (Command Owner)
  | adopt name image => some (adopt name image)
  | drop name => some (drop name)
  | hold image p as => some (hold image p as)
  | letGo as => some (letGo as)
  | advance microseconds => some (advance microseconds)
  | keep image p as => some (keep image p as)
  | revisit as => some (revisit as)
  | request r => (r.resolve owner? some).map request
  | addEach o tiles => (owner? o).map (addEach · tiles)
  | malformed r => some (malformed r)

/-- The owner of the tiles a command caches. -/
def owner? : Command Owner → Option Owner
  | request r => r.owner?
  | addEach o _ => some o
  | _ => none

/-- The commands of one step that a command stands for. -/
def steps : Command Owner → List (Command Owner)
  | addEach o tiles => tiles.map fun (p, payload, cost) => request (.add o p payload cost)
  | c => [c]

end Command

namespace Session

/-- Run a computation of the cache. -/
@[inline] def inCache {α : Type} (f : Mutation Cache α) : Mutation Session α :=
  f.within (·.cache) fun c s => { s with cache := c }

/-- Change the scene. -/
def editScene (f : Scene → Scene) : Mutation Session Unit :=
  modify fun s => { s with scene := f s.scene }

/-- An entry as it is now. -/
def sight (s : Session) (e : Entry) : Sighting := s.cache.sight s.scene.moment e

/-- Answer a request. One about an unknown image is passed over. -/
def request (r : Request Owner Subject) : Mutation Session (Reply × List Notice) := do
  let scene := (← get).scene
  match r.resolve some scene.image? with
  | none => return (.done, [])
  | some r => inCache (r.perform scene.moment)

/-- Look up a tile. -/
def lookup (image : Subject) (p : Position) : Mutation Session (Option Sighting) := do
  match ← request (.get image p) with
  | (.entry found, _) => return found
  | _ => return none

/-- Obey a command that is one step. The notices are what remains to be done. -/
def obey : Command Owner → Mutation Session (Reply × List Notice)
  | .adopt name image => do
    editScene (·.adopt name image)
    return (.text image.text, [])
  | .drop name => do
    let known := (← get).scene.owners.contains name
    editScene (·.drop name)
    return (.flag known, [])
  | .hold image p as => do
    match ← lookup image p with
    | some ⟨e, _, false⟩ =>
      editScene (·.hold as ⟨e.owner, e.image.identity⟩)
      return (.flag true, [])
    | _ => return (.flag false, [])
  | .letGo as => do
    let known := (← get).scene.holds.contains as
    editScene (·.letGo as)
    return (.flag known, [])
  | .advance microseconds => do
    editScene fun s => { s with clock := s.clock + microseconds }
    return (.done, [])
  | .keep image p as => do
    let found ← lookup image p
    if let some seen := found then editScene (·.keep as seen.entry)
    return (.entry found, [])
  | .revisit as => do
    let s ← get
    return (.entry ((s.scene.kept[as]?).map s.sight), [])
  | .request r => request r
  | .malformed r => return (.rejected r, [])
  | .addEach _ _ => return (.done, [])

end Session

end TileStore
