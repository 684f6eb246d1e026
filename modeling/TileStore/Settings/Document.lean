import TileStore.Settings

/-!
# Settings as documents

Settings are stored in documents: values built from numbers, texts, lists and named fields.
`ofDatum?` reads the settings from such a value, given by field names or as a list in the order of
the fields; what is missing has its default. `toDatum` writes all of them by name.
-/

namespace TileStore

/-- A value of a document. -/
inductive Datum where
  | null
  | flag (b : Bool)
  /-- A number written without a fraction or an exponent. -/
  | whole (n : Int)
  /-- Any other number. -/
  | real (x : Binary64)
  | text (s : String)
  | items (xs : List Datum)
  | fields (xs : List (String × Datum))
deriving Inhabited

namespace Datum

/-- The value of a field; of fields with one name the last counts. -/
def field? (xs : List (String × Datum)) (name : String) : Option Datum := xs.reverse.lookup name

/-- A truth value. -/
def flag? : Datum → Option Bool
  | .flag b => some b
  | _ => none

/-- A whole number that fits a word. -/
def word? : Datum → Option UInt64
  | .whole n => if 0 ≤ n ∧ n.toNat < UInt64.size then some (UInt64.ofNat n.toNat) else none
  | _ => none

/-- Any number. -/
def number? : Datum → Option Binary64
  | .whole n => some (.ofMagnitude (n < 0) (Binary64.magnitudeOfRatio n.natAbs 1))
  | .real x => some x
  | _ => none

/-- A layout: its name, alone or as the only field with nothing in it. -/
def layout? : Datum → Option Layout
  | .text s => Layout.ofName? s
  | .fields [(s, .null)] => Layout.ofName? s
  | _ => none

end Datum

namespace Settings

/-- The names of the fields, in order. -/
def fieldNames : List String :=
  ["capacity", "threshold", "variant", "shards", "diagnostics", "track_recency", "entry_overhead"]

/-- The settings a look-up of fields gives. -/
def ofLookup? (field? : String → Option Datum) : Option Settings := do
  let read {α : Type} (name : String) (as? : Datum → Option α) (default : α) : Option α :=
    match field? name with
    | some d => as? d
    | none => some default
  let standard : Settings := {}
  let capacity ← read "capacity" Datum.word? standard.capacity
  let threshold ← read "threshold" Datum.number? standard.threshold
  let layout ← read "variant" Datum.layout? standard.layout
  let shards ← read "shards" Datum.word? standard.shards
  let diagnostics ← read "diagnostics" Datum.flag? standard.diagnostics
  let trackRecency ← read "track_recency" Datum.flag? standard.trackRecency
  let overhead ← read "entry_overhead" Datum.word? standard.overhead
  return { capacity, threshold, layout, shards, diagnostics, trackRecency, overhead }

/-- The settings a document holds. Fields of other names are passed over; a list must not be longer
than the fields. -/
def ofDatum? : Datum → Option Settings
  | .fields xs => ofLookup? (Datum.field? xs)
  | .items xs =>
    if xs.length ≤ fieldNames.length then ofLookup? fun name => (fieldNames.zip xs).lookup name
    else none
  | _ => none

/-- The document that holds the settings. -/
def toDatum (s : Settings) : Datum :=
  .fields <| fieldNames.zip
    [.whole s.capacity.toNat, .real s.threshold, .text s.layout.name, .whole s.shards.toNat,
      .flag s.diagnostics, .flag s.trackRecency, .whole s.overhead.toNat]

/-- Whether the settings read back from the document that holds them. -/
def readsBack (s : Settings) : Bool := ofDatum? s.toDatum = some s

theorem word?_whole (w : UInt64) : (Datum.whole w.toNat).word? = some w := by
  rw [Datum.word?, if_pos ⟨Int.natCast_nonneg _, w.toNat_lt_size⟩]
  simp

/-- Settings always read back. -/
theorem ofDatum?_toDatum (s : Settings) : ofDatum? s.toDatum = some s := by
  simp [ofDatum?, toDatum, fieldNames, ofLookup?, Datum.field?, List.lookup_cons, word?_whole,
    Datum.number?, Datum.layout?, Datum.flag?]

end Settings

end TileStore
