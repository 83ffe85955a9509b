import FastTts.Bytes
import Mathlib.Data.Rat.Defs

/-!
# Parsed requests

The values of `engine::io::json` with the accessors that the handlers use, and the errors they
answer with. An exception that no handler catches is answered by the connection with status 500.
-/

namespace FastTts

/-- The numbers of a request: `double`, with its conversions to `float` and `int64_t`. -/
class Number (N : Type) where
  toF32 : N → N
  toI64 : N → Option ℤ

instance : Number ℚ where
  toF32 q := q
  toI64 q := if q.den = 1 then some q.num else none

/-- A `double` with the literals of the source and how a stream prints it. -/
class Double (N : Type) extends Number N, LE N, LT N where
  lit : ℚ → N
  print : N → Bytes
  decideLE : ∀ a b : N, Decidable (a ≤ b)
  decideLT : ∀ a b : N, Decidable (a < b)

instance instDecidableDoubleLE {N : Type} [Double N] (a b : N) : Decidable (a ≤ b) := Double.decideLE a b

instance instDecidableDoubleLT {N : Type} [Double N] (a b : N) : Decidable (a < b) := Double.decideLT a b

instance : Double ℚ where
  lit q := q
  print q := bytes (toString q)
  decideLE := inferInstance
  decideLT := inferInstance

inductive Json (N : Type)
  | null
  | bool (value : Bool)
  | number (value : N)
  | string (value : Bytes)
  | array (values : List (Json N))
  | object (fields : List (Bytes × Json N))

abbrev Exception := Bytes

structure HttpError where
  status : ℕ
  message : Bytes
  kind : Bytes
  deriving DecidableEq, Repr

def badRequest (message : Bytes) : HttpError := ⟨400, message, bytes "invalid_request_error"⟩

def serverError (what : Exception) : HttpError := ⟨500, what, bytes "server_error"⟩

/-- An exception that leaves the handler. -/
def uncaught {α : Type} : Except Exception α → Except HttpError α
  | .ok a => .ok a
  | .error what => .error (serverError what)

/-- An exception that the handler answers itself. -/
def rejected {α : Type} : Except Exception α → Except HttpError α
  | .ok a => .ok a
  | .error what => .error (badRequest what)

/-! ## What led to a result, and loops that succeed -/

variable {ε α β : Type} {x : Except ε α} {f : α → Except ε β} {b : β} {l : List α}

theorem except_bind_ok (h : x >>= f = .ok b) : ∃ a, x = .ok a ∧ f a = .ok b := by
  cases x with
  | error e => cases h
  | ok a => exact ⟨a, rfl, h⟩

theorem except_map_ok {f : α → β} (h : x.map f = .ok b) : ∃ a, x = .ok a ∧ f a = b := by
  cases x with
  | error e => cases h
  | ok a =>
    cases h
    exact ⟨a, rfl, rfl⟩

theorem mapM_ok {g : α → β} (h : ∀ a ∈ l, f a = .ok (g a)) : l.mapM f = .ok (l.map g) := by
  induction l with
  | nil => rfl
  | cons a l ih =>
    rw [List.mapM_cons, h a List.mem_cons_self, ih fun a' ha' => h a' (List.mem_cons_of_mem a ha')]
    rfl

theorem mapM_getElem? {l' : List β} (h : l.mapM f = .ok l') :
    l'.length = l.length ∧ ∀ (i : ℕ) a, l[i]? = some a → ∃ b, l'[i]? = some b ∧ f a = .ok b := by
  induction l generalizing l' with
  | nil =>
    rw [List.mapM_nil] at h
    cases h
    exact ⟨rfl, by simp⟩
  | cons a l ih =>
    rw [List.mapM_cons] at h
    obtain ⟨b, hb, h⟩ := except_bind_ok h
    obtain ⟨rest, hrest, h⟩ := except_bind_ok h
    cases h
    obtain ⟨hlength, hget⟩ := ih hrest
    refine ⟨by rw [List.length_cons, List.length_cons, hlength], ?_⟩
    intro i a' hi
    cases i with
    | zero =>
      cases hi
      exact ⟨b, rfl, hb⟩
    | succ i => exact hget i a' hi

theorem rejected_ok {x : Except Exception α} {a : α} (h : rejected x = .ok a) : x = .ok a := by
  cases x with
  | error e => cases h
  | ok b =>
    cases h
    rfl

/-! ## Quoting -/

def hexDigit (digit : ℕ) : UInt8 :=
  UInt8.ofNat (if digit < 10 then 0x30 + digit else 0x57 + digit)

/-- A `"`, a backslash and every byte below `0x20` are written as an escape. -/
def jsonEscape (value : Bytes) : Bytes :=
  value.flatMap fun ch =>
    if ch = 0x22 then bytes "\\\""
    else if ch = 0x5C then bytes "\\\\"
    else if ch = 0x0A then bytes "\\n"
    else if ch = 0x0D then bytes "\\r"
    else if ch = 0x09 then bytes "\\t"
    else if ch < 0x20 then
      bytes "\\u00" ++ [hexDigit (ch.toNat / 16), hexDigit (ch.toNat % 16)]
    else [ch]

def quotedByte (ch : UInt8) : Bytes :=
  if ch = 0x22 then bytes "\\\""
  else if ch = 0x5C then bytes "\\\\"
  else if ch = 0x08 then bytes "\\b"
  else if ch = 0x0C then bytes "\\f"
  else if ch = 0x0A then bytes "\\n"
  else if ch = 0x0D then bytes "\\r"
  else if ch = 0x09 then bytes "\\t"
  else if ch < 0x20 then
    bytes "\\u00" ++ [hexDigit (ch.toNat / 16), hexDigit (ch.toNat % 16)]
  else [ch]

/-- `stringify_string`, which reads a C string. -/
def jsonQuote (value : Bytes) : Bytes :=
  0x22 :: (value.takeWhile fun ch => ch ≠ 0).flatMap quotedByte ++ [0x22]

namespace Json

variable {N : Type} (value : Json N) (key : Bytes)

def find : Option (Json N) :=
  match value with
  | .object fields => fields.lookup key
  | _ => none

def asString : Json N → Except Exception Bytes
  | .string text => .ok text
  | _ => .error (bytes "json value is not a string")

def string? : Json N → Option Bytes
  | .string text => some text
  | _ => none

def number? : Json N → Option N
  | .number x => some x
  | _ => none

def array? : Json N → Option (List (Json N))
  | .array values => some values
  | _ => none

def require : Except Exception (Json N) :=
  match value.find key with
  | some found => .ok found
  | none => .error (bytes "missing required json key: " ++ key)

def requireString : Except Exception Bytes :=
  value.require key >>= asString

def optionalString (key default : Bytes) : Bytes :=
  ((value.find key).bind string?).getD default

def flag : Bool :=
  match value.find key with
  | some (.bool b) => b
  | _ => false

variable [Number N]

def asI64 (x : N) : Except Exception ℤ :=
  match Number.toI64 x with
  | some n => .ok n
  | none => .error (bytes "json number is not an integer")

/-- A number under `key`, or `none`; it must be an integer. -/
def integer? : Except Exception (Option ℤ) :=
  match (value.find key).bind number? with
  | some x => (asI64 x).map some
  | none => .ok none

def optionalI64 (default : ℤ) : Except Exception ℤ :=
  (value.integer? key).map fun n => n.getD default

def f32? : Option N :=
  ((value.find key).bind number?).map Number.toF32

def optionalF32 (default : N) : N := (value.f32? key).getD default

end Json

end FastTts
