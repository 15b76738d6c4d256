import Mathlib.Data.List.Basic

/-! Encodings that can be read from a stream: what is encoded is decoded whatever comes behind it,
and nothing of that is consumed. -/

namespace Codec

variable {α β : Type}

/-- For the values that are `valid`, decoding undoes encoding and stops just behind. -/
def RoundTrips (encode : α → List β) (decode : List β → Option (α × List β)) (valid : α → Prop) : Prop :=
  ∀ a, valid a → ∀ rest, decode (encode a ++ rest) = some (a, rest)

/-- A number of values one after another. -/
def decodeMany (decode : List β → Option (α × List β)) : ℕ → List β → Option (List α × List β)
  | 0, input => some ([], input)
  | n + 1, input =>
    (decode input).bind fun head => (decodeMany decode n head.2).map fun tail => (head.1 :: tail.1, tail.2)

/-- A concatenation is decoded to the list it came from. -/
theorem RoundTrips.many {encode : α → List β} {decode : List β → Option (α × List β)} {valid : α → Prop}
    (h : RoundTrips encode decode valid) {values : List α} (hvalid : ∀ a ∈ values, valid a) (rest : List β) :
    decodeMany decode values.length (values.flatMap encode ++ rest) = some (values, rest) := by
  induction values with
  | nil => rfl
  | cons a values ih =>
    have ih := ih fun b hb => hvalid b (List.mem_cons_of_mem _ hb)
    rw [List.flatMap_cons, List.append_assoc, List.length_cons, decodeMany, h a (hvalid a List.mem_cons_self)]
    rw [Option.bind_some, ih]
    rfl

end Codec
