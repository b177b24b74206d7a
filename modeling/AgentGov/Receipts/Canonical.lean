import AgentGov.Foundation.JsonReader
import AgentGov.Vocabulary
import Mathlib.Data.List.Sort

/-!
# Canonical encoding and strict decoding

The bytes every hash and signature of a receipt covers, and the decoder that refuses what they
cannot be (`src/src/agentgov/receipts/canonical.py`). An object's keys are written in the order of
their UTF-16 units. What a decoder raises is an outcome of its own; of the words the JSON decoder
adds to a message nothing is kept.

## Main definitions

* `AgentGov.Receipts.canonicalBytes`, `AgentGov.Receipts.ordered`: the encoding.
* `AgentGov.Receipts.loadsStrict`: the decoder of bytes.

## Main results

* `AgentGov.Receipts.loadsStrict_canonicalBytes`: what was encoded is decoded, its keys in order.
* `AgentGov.Receipts.canonicalBytes_noBreak`: an encoding holds no line end.
-/

namespace AgentGov.Receipts

open Foundation

/-- Why a witness refuses its file or a checkpoint. -/
inductive Refusal
  /-- The file holds a cosignature the witness did not make. -/
  | notMade (message : Text)
  /-- The file is out of order for a log. -/
  | outOfOrder (logId : Text)
  /-- The witness does not follow the log. -/
  | notFollowed (logId : Text)
  /-- The checkpoint is not signed by the log. -/
  | notSigned (logId message : Text)
  /-- The log rolled back. -/
  | rolledBack (logId : Text) (oldSize newSize : ℤ)
  /-- The log presented two roots at one size. -/
  | fork (logId : Text) (size : ℤ) (oldRoot newRoot : Text)
  /-- The log does not extend what was cosigned. -/
  | rewritten (logId : Text) (oldSize newSize : ℤ)
deriving DecidableEq

/-- What reading, checking or witnessing a document can raise. -/
inductive Fault
  /-- `MalformedReceiptError`, with its message. -/
  | malformed (message : Text)
  /-- `ReceiptSignatureError`. -/
  | signature (message : Text)
  /-- `WitnessError`. -/
  | witness (refusal : Refusal)
  /-- `ValueError`. -/
  | valueError (message : Text)
  /-- `TypeError`. -/
  | typeError
  /-- `RecursionError`. -/
  | recursionError
  /-- `OSError`. -/
  | osError
deriving DecidableEq

/-- `MAX_SAFE_INTEGER`. -/
def maxSafeInteger : ℤ := 2 ^ 53 - 1

theorem length_decimalDigits_le {n k : ℕ} (h : n < 10 ^ k) (hk : 0 < k) :
    (decimalDigits n).length ≤ k := by
  unfold decimalDigits
  split_ifs with hn
  · exact hk
  · rw [List.length_map, List.length_reverse]
    exact (Nat.digits_length_le_iff (by omega) n).mpr h

/-- The numeral of a safe integer is short. -/
theorem length_decimalDigits_of_safe {n : ℤ} (h : -maxSafeInteger ≤ n ∧ n ≤ maxSafeInteger) :
    (decimalDigits n.natAbs).length ≤ Json.maxDigits := by
  have hlt : n.natAbs < 10 ^ 16 := by
    obtain ⟨hlower, hupper⟩ := h
    unfold maxSafeInteger at hlower hupper
    omega
  exact (length_decimalDigits_le hlt (by omega)).trans (by decide)

/-! ### Encoding -/

/-- Whether a list of units comes before another, or is it. -/
def unitsLe : List ℕ → List ℕ → Bool
  | [], _ => true
  | _ :: _, [] => false
  | u :: us, v :: vs => if u < v then true else if v < u then false else unitsLe us vs

/-- `_utf16_order`: whether a key is written before another. -/
def utf16Order (a b : Text) : Bool := unitsLe (Text.utf16 a) (Text.utf16 b)

/-- A member put among others in the order of the keys. -/
def insertMember (f : Text × Json) : List (Text × Json) → List (Text × Json)
  | [] => [f]
  | g :: gs => if utf16Order f.1 g.1 then f :: g :: gs else g :: insertMember f gs

mutual

/-- `_ordered`: a value with the keys of every object in order. -/
def ordered : Json → Json
  | .arr vs => .arr (orderedItems vs)
  | .obj fs => .obj (orderedMembers fs)
  | .null => .null
  | .bool b => .bool b
  | .int n => .int n
  | .str t => .str t

/-- Every item with its keys in order. -/
def orderedItems : List Json → List Json
  | [] => []
  | v :: vs => ordered v :: orderedItems vs

/-- The members in the order of their keys. -/
def orderedMembers : List (Text × Json) → List (Text × Json)
  | [] => []
  | (k, v) :: fs => insertMember (k, ordered v) (orderedMembers fs)

end

mutual

/-- Whether every integer of a value is in the safe range. -/
def inDomain : Json → Bool
  | .int n => decide (-maxSafeInteger ≤ n ∧ n ≤ maxSafeInteger)
  | .arr vs => itemsInDomain vs
  | .obj fs => membersInDomain fs
  | .null => true
  | .bool _ => true
  | .str _ => true

/-- Whether every integer of some items is in the safe range. -/
def itemsInDomain : List Json → Bool
  | [] => true
  | v :: vs => inDomain v && itemsInDomain vs

/-- Whether every integer of some members is in the safe range. -/
def membersInDomain : List (Text × Json) → Bool
  | [] => true
  | (_, v) :: fs => inDomain v && membersInDomain fs

end

/-- `canonical_bytes`. -/
def canonicalBytes (v : Json) : Except Fault (List Byte) :=
  if inDomain v then
    match Text.utf8 (Json.dump Json.quote (ordered v)) with
    | some bs => .ok bs
    | none => .error (.malformed (txt "a string is not valid Unicode"))
  else .error (.malformed (txt "an integer is outside the safe range"))

/-! ### Decoding -/

/-- What a failure of the decoder is raised as. -/
def Fault.ofJson : JsonFault → Fault
  | .invalid => .malformed (txt "not valid JSON")
  | .nesting => .recursionError

/-- `loads_strict` of bytes, with `room` levels of containers left on the stack. -/
def loadsStrict (room : ℕ) (bs : List Byte) : Except Fault Json :=
  match Json.loadsBytes room bs with
  | .ok v => .ok v
  | .error e => .error (.ofJson e)

/-- Bytes that start with an object's brace and a key's quote are read as UTF-8. -/
theorem decodeText_object (bs : List Byte) :
    Json.decodeText (123 :: 34 :: bs) = Text.utf8Decode (123 :: 34 :: bs) := by
  match bs with
  | [] => rfl
  | [_] => rfl
  | _ :: _ :: _ => rfl

/-- The bytes of an object start with its brace and a key's quote. -/
theorem utf8_object {t : Text} {bs : List Byte} (h : Text.utf8 (123 :: 34 :: t) = some bs) :
    ∃ cs, bs = 123 :: 34 :: cs := by
  have happ := Text.utf8_append [123, 34] t
  rw [List.cons_append, List.cons_append, List.nil_append, h,
    show Text.utf8 [123, 34] = some [123, 34] by decide, Option.bind_some] at happ
  cases ht : Text.utf8 t with
  | none => simp [ht] at happ
  | some cs =>
    rw [ht, Option.map_some] at happ
    exact ⟨cs, Option.some.inj happ⟩

theorem canonicalBytes_eq_ok {v : Json} {bs : List Byte} (h : canonicalBytes v = .ok bs) :
    Text.utf8 (Json.dump Json.quote (ordered v)) = some bs := by
  unfold canonicalBytes at h
  split_ifs at h
  split at h
  · rename_i hutf
    rw [hutf, Except.ok.inj h]
  · cases h

/-- An object that is encoded is decoded, its keys in order. -/
theorem loadsStrict_canonicalBytes {room : ℕ} {v : Json} {bs : List Byte}
    (h : canonicalBytes v = .ok bs) (hv : Json.Readable room (ordered v))
    {k : Text} {w : Json} {fs : List (Text × Json)} (hobj : ordered v = .obj ((k, w) :: fs)) :
    loadsStrict room bs = .ok (ordered v) := by
  have hutf := canonicalBytes_eq_ok h
  have hdump : ∃ t, Json.dump Json.quote (ordered v) = 123 :: 34 :: t := by
    rw [hobj]
    simp [Json.dump, Json.quote, Json.ofString_quote, Json.ofString_brackets]
  obtain ⟨t, hdump⟩ := hdump
  obtain ⟨cs, rfl⟩ := utf8_object (hdump ▸ hutf)
  rw [loadsStrict, Json.loadsBytes, decodeText_object, Text.utf8Decode_utf8 hutf]
  simp only [Json.loads_dump hv]

/-- An encoding holds no line end, and no other control code. -/
theorem canonicalBytes_noBreak {v : Json} {bs : List Byte} (h : canonicalBytes v = .ok bs) :
    ∀ b ∈ bs, 32 ≤ b.val := by
  intro b hb
  by_contra hlt
  obtain ⟨c, hc, hval⟩ := Text.mem_of_mem_utf8 (canonicalBytes_eq_ok h) hb (by omega)
  have := Json.le_val_dump (ordered v) c hc
  omega

end AgentGov.Receipts
