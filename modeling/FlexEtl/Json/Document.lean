/-
FlexEtl.Json.Document — JSON documents and the events rapidjson emits for them.

`Json` is what one line can hold and `events` is the depth-first order in
which `rapidjson::Reader` reports it (`ParseObject`, `ParseArray` and the
scalar parsers of `reader.h`). A number arrives already classified by width
and sign. `ParseStream` is what a call of `Reader::Parse` amounts to for the
handler, whether or not the text is JSON: a finite stream of events and an
error flag.
-/
import FlexEtl.Table.Value

namespace FlexEtl

/-! ## Documents -/

/-- A value that the reader reports by one callback. -/
inductive Scalar where
  | null
  | bool (b : Bool)
  | int (i : Int32)
  | uint (u : UInt32)
  | int64 (i : Int64)
  | uint64 (u : UInt64)
  | double (bits : UInt64)
  | string (s : Bytes)
  deriving DecidableEq, Repr

/-- A JSON value. The members of an object keep their order and may repeat a key. -/
inductive Json where
  | scalar (s : Scalar)
  | array (xs : List Json)
  | object (ms : List (Bytes × Json))
  deriving Repr

/-- The callbacks of rapidjson's `Handler` concept. -/
inductive Event where
  | scalar (s : Scalar)
  | startObject
  | key (str : Bytes)
  | endObject (memberCount : Nat)
  | startArray
  | endArray (elementCount : Nat)
  deriving DecidableEq, Repr

namespace Json

/-- The events of a value, in the order of `Reader::ParseValue`. -/
def events : Json → List Event
  | scalar s => [.scalar s]
  | array xs => .startArray :: (eventsArray xs ++ [.endArray xs.length])
  | object ms => .startObject :: (eventsObject ms ++ [.endObject ms.length])
where
  eventsArray : List Json → List Event
    | [] => []
    | x :: xs => x.events ++ eventsArray xs
  eventsObject : List (Bytes × Json) → List Event
    | [] => []
    | (k, v) :: ms => .key k :: (v.events ++ eventsObject ms)

/-- Induction over a value, with the hypotheses of the elements and members. -/
theorem inductOn {P : Json → Prop} (j : Json) (scalar : ∀ s, P (.scalar s))
    (array : ∀ xs, (∀ x ∈ xs, P x) → P (.array xs))
    (object : ∀ ms, (∀ m ∈ ms, P m.2) → P (.object ms)) : P j :=
  @Json.rec P (fun xs => ∀ x ∈ xs, P x) (fun ms => ∀ m ∈ ms, P m.2) (fun m => P m.2)
    scalar (fun xs ih => array xs ih) (fun ms ih => object ms ih)
    (by simp) (fun _ _ hx hxs y hy => (List.mem_cons.mp hy).elim (· ▸ hx) (hxs y))
    (by simp) (fun _ _ hm hms n hn => (List.mem_cons.mp hn).elim (· ▸ hm) (hms n))
    (fun _ _ h => h) j

/-! ## Shapes -/

/-- Some array occurs in the value, at any depth. -/
def hasArray : Json → Bool
  | scalar _ => false
  | array _ => true
  | object ms => hasArrayMembers ms
where
  hasArrayMembers : List (Bytes × Json) → Bool
    | [] => false
    | (_, v) :: ms => v.hasArray || hasArrayMembers ms

/-- No object occurs in the value, at any depth. -/
def objectFree : Json → Bool
  | scalar _ => true
  | array xs => objectFreeAll xs
  | object _ => false
where
  objectFreeAll : List Json → Bool
    | [] => true
    | x :: xs => x.objectFree && objectFreeAll xs

def isArray : Json → Bool
  | array _ => true
  | _ => false

def isObject : Json → Bool
  | object _ => true
  | _ => false

/-- No array in the value has an array among its elements. -/
def flat : Json → Bool
  | scalar _ => true
  | array xs => !xs.any isArray && flatAll xs
  | object ms => flatMembers ms
where
  flatAll : List Json → Bool
    | [] => true
    | x :: xs => x.flat && flatAll xs
  flatMembers : List (Bytes × Json) → Bool
    | [] => true
    | (_, v) :: ms => v.flat && flatMembers ms

theorem eq_object {j : Json} (h : j.isObject = true) : ∃ ms, j = object ms := by
  cases j with
  | object ms => exact ⟨ms, rfl⟩
  | _ => cases h

theorem isArray_of_isObject {j : Json} (h : j.isObject = true) : j.isArray = false := by
  obtain ⟨ms, rfl⟩ := eq_object h
  rfl

theorem objectFreeAll_iff {xs : List Json} :
    objectFree.objectFreeAll xs = true ↔ ∀ x ∈ xs, x.objectFree = true := by
  induction xs with
  | nil => simp [objectFree.objectFreeAll]
  | cons x xs ih => simp [objectFree.objectFreeAll, ih]

@[simp] theorem objectFree_scalar (s : Scalar) : (scalar s).objectFree = true := rfl

@[simp] theorem objectFree_object (ms : List (Bytes × Json)) :
    (object ms).objectFree = false := rfl

@[simp] theorem objectFree_array {xs : List Json} :
    (array xs).objectFree = true ↔ ∀ x ∈ xs, x.objectFree = true :=
  objectFreeAll_iff

end Json

/-! ## Parsing one line -/

/-- What `Reader::Parse` does to its handler: the events it would deliver, and
whether it then reports an error in the text. -/
structure ParseStream where
  events : List Event
  isError : Bool

/-- The stream of a line that is one JSON value. -/
def Json.stream (j : Json) : ParseStream := { events := j.events, isError := false }

end FlexEtl
