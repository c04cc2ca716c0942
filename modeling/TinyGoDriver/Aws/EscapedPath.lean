import TinyGoDriver.Aws.CanonicalQuery
import TinyGoDriver.HttpMux.Redirect

/-!
# The path that is signed

`escapedPath` spares `EscapedPath` its allocation where the raw path is what `URIEncode` makes of
the path, which `uriEncodesTo` finds out byte by byte.  Such a raw path is an encoding of the path
that `EscapedPath` takes as well, so that the path signed is the one sent (`escapedPath_signed`). -/

namespace Aws

open GoRt List

/-- `uriEncodesTo`, from a byte of the path and one of the encoding on. -/
def uriEncodesTo : List UInt8 → List UInt8 → Bool
  | [], raw => raw = []
  | c :: path, raw =>
    if unreservedByte c ∨ c = slash then
      match raw with
      | b :: raw => if b ≠ c then false else uriEncodesTo path raw
      | [] => false
    else
      match raw with
      | b :: h :: l :: raw =>
        if b ≠ percent ∨ h ≠ upperHex (c >>> 4) ∨ l ≠ upperHex (c &&& 15) then false
        else uriEncodesTo path raw
      | _ => false

def escapedPath (u : HttpMux.Url) : List UInt8 :=
  if u.rawPath ≠ [] ∧ uriEncodesTo u.path u.rawPath then u.rawPath else u.escapedPath

theorem uriEncodesTo_iff (path raw : List UInt8) :
  uriEncodesTo path raw ↔ raw = uriEncode path false
  := by
  induction path generalizing raw with
  | nil => simp [uriEncodesTo, uriEncode]
  | cons c path ih =>
    rw [uriEncode, flatMap_cons, ← uriEncode, uriEncodesTo.eq_def]
    dsimp only
    split
    · rename_i hc
      have hbyte : encodeByte false c = [c] := by
        rw [encodeByte]
        rcases hc with hc | rfl
        · rw [if_pos hc]
        · rfl
      rw [hbyte]
      cases raw with
      | nil => simp
      | cons b raw => simp [ih]
    · rename_i hc
      have hbyte : encodeByte false c = escapeByte c := by
        rw [not_or] at hc
        rw [encodeByte, if_neg hc.1, if_neg (fun h => hc.2 h.1)]
      rw [hbyte, escapeByte]
      split
      · simp [ih, and_assoc]
      · rename_i hraw
        simp only [Bool.false_eq_true, false_iff]
        rintro rfl
        exact hraw _ _ _ _ rfl

/-- The path compared is the path encoded, and the path signed is the one that is sent. -/
theorem escapedPath_signed :
  (∀ path raw, uriEncodesTo path raw ↔ raw = uriEncode path false)
    ∧ ∀ u, escapedPath u = u.escapedPath
  := by
  refine ⟨uriEncodesTo_iff, fun u => ?_⟩
  have hunescape : ∀ b, unescape (encodeByte false b) = some [b] := by
    apply forall_byte
    decide +kernel
  have hvalid : ∀ b, validEncoded (encodeByte false b) := by
    apply forall_byte
    decide +kernel
  rw [escapedPath]
  split
  · rename_i h
    rw [uriEncodesTo_iff] at h
    have hraw : u.validRawPath := by
      rw [HttpMux.Url.validRawPath, decide_eq_true_eq, h.2]
      exact ⟨h.2 ▸ h.1, validEncoded_flatMap hvalid _, unescape_flatMap hunescape _⟩
    rw [HttpMux.Url.escapedPath, if_pos hraw]
  · rfl

end Aws
