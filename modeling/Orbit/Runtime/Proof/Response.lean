import Mathlib.Data.Nat.Digits.Defs
import Orbit.Runtime.Response

/-!
# The two heads of a response

The head that `orbit_send_response` builds by hand is the one of `snprintf`, and it fits into its
buffer (`fastHead_eq_slowHead`).
-/

namespace Runtime.Response

open Http (Text)
open Lib.Text (chars intToString)

/-! ## Numbers -/

theorem digit_eq : ∀ d < 10, Char.ofNat ('0'.toNat + d) = Nat.digitChar d := by decide

theorem magDigits_eq (room mag : Nat) (tmp : Text) (hpos : 0 < mag) (h : mag < 10 ^ room) :
    magDigits room mag tmp = some (Nat.toDigits 10 mag ++ tmp) := by
  induction room generalizing mag tmp with
  | zero => omega
  | succ room ih =>
    rw [magDigits, if_neg (by omega), digit_eq _ (Nat.mod_lt _ (by decide)),
      Nat.toDigits_eq_if (by decide)]
    by_cases hsmall : mag < 10
    · rw [if_pos hsmall, Nat.div_eq_of_lt hsmall, Nat.mod_eq_of_lt hsmall]
      cases room <;> rfl
    · rw [if_neg hsmall, ih (mag / 10) _ (by omega) (by rw [Nat.pow_succ] at h; omega),
        List.append_assoc]
      rfl

/-- The magnitude of a negative number is taken without overflow. -/
theorem uint32_neg {v : Int} (hlo : -2 ^ 31 ≤ v) (hneg : v < 0) :
    uint32 (uint32 (-(v + 1)) + 1) = v.natAbs := by
  simp only [uint32]
  omega

theorem uint32_pos {v : Int} (hpos : ¬ v < 0) (hhi : v < 2 ^ 31) : uint32 v = v.natAbs := by
  rw [uint32]
  omega

/-- A number is written as `%d` writes it. -/
theorem orbitAppendInt_eq {v : Int} (hlo : -2 ^ 31 ≤ v) (hhi : v < 2 ^ 31) :
    orbitAppendInt v = some (intToString v) := by
  rw [orbitAppendInt, intToString]
  by_cases hneg : v < 0
  · simp only [if_pos hneg, uint32_neg hlo hneg]
    rw [if_neg (by omega), magDigits_eq 10 _ _ (by omega) (by omega), List.append_nil]
    rfl
  · simp only [if_neg hneg, uint32_pos hneg hhi]
    by_cases hzero : v.natAbs = 0
    · rw [if_pos hzero, hzero]
      rfl
    · rw [if_neg hzero, magDigits_eq 10 _ _ (by omega) (by omega), List.append_nil]
      rfl

theorem intToString_length {v : Int} (hlo : -2 ^ 31 ≤ v) (hhi : v < 2 ^ 31) :
    (intToString v).length ≤ 11 := by
  have hdigits : (Nat.toDigits 10 v.natAbs).length ≤ 10 := by
    rw [Nat.length_toDigits_le_iff (by decide) (by decide)]
    omega
  rw [intToString]
  split
  · rw [List.length_cons]
    omega
  · omega

theorem toInt32_bounds (n : Nat) : -2 ^ 31 ≤ toInt32 n ∧ toInt32 n < 2 ^ 31 := by
  have hlo := Int.le_bmod (x := (n : Int)) (Nat.two_pow_pos 32)
  have hhi := Int.bmod_lt (x := (n : Int)) (Nat.two_pow_pos 32)
  have heq : toInt32 n = (n : Int).bmod (2 ^ 32) := rfl
  generalize toInt32 n = m at heq ⊢
  omega

/-! ## Heads -/

/-- Pieces that fit are written one behind the other. -/
theorem putAll_eq {h : Text} {pieces : List Text}
    (hfits : (h ++ pieces.flatten).length ≤ headerSize) :
    putAll h pieces = some (h ++ pieces.flatten) := by
  induction pieces generalizing h with
  | nil => rw [putAll, List.flatten_nil, List.append_nil]
  | cons piece pieces ih =>
    rw [List.flatten_cons, ← List.append_assoc] at hfits ⊢
    rw [putAll, if_pos, ih hfits]
    rw [List.length_append] at hfits
    rw [← List.length_append]
    omega

/-- The head of a response. -/
def fullHead (resp : OrbitResponse) (reason ct : Text) (bodyLen : Nat) : Text :=
  chars "HTTP/1.1 " ++ intToString resp.status ++ chars " " ++ reason ++
    chars "\r\nServer: Orbit\r\nContent-Type: " ++ ct ++ chars "\r\n" ++
    resp.extraHeaders.getD [] ++
    chars "Connection: keep-alive\r\nKeep-Alive: timeout=30, max=1000\r\nContent-Length: " ++
    intToString (toInt32 bodyLen) ++ chars "\r\n\r\n"

/-- No head by `snprintf` is cut. -/
theorem slowHead_eq (resp : OrbitResponse) (reason ct : Text) (bodyLen : Nat) :
    slowHead resp reason ct bodyLen = fullHead resp reason ct bodyLen := by
  have hfirst : orbitFormatHeader headerSize resp reason ct bodyLen =
      ((fullHead resp reason ct bodyLen).take 511, (fullHead resp reason ct bodyLen).length) := rfl
  have hagain : ∀ n, (orbitFormatHeader (n + 1) resp reason ct bodyLen).1 =
      (fullHead resp reason ct bodyLen).take n := fun n => rfl
  rw [slowHead, hfirst]
  dsimp only
  split
  · rw [hagain, List.take_length]
  · next hsmall =>
    rw [headerSize] at hsmall
    exact List.take_of_length_le (by omega)

/-- The pieces of the head by hand are the head. -/
theorem fastHead_pieces (resp : OrbitResponse) (reason ct : Text) (bodyLen : Nat) :
    ([chars "HTTP/1.1 ", intToString resp.status, [' '], reason,
        chars "\r\nServer: Orbit\r\nContent-Type: ", ct] ++
      (if resp.extraHeadersLen > 0 then
        [['\r'], ['\n'], (resp.extraHeaders.getD []).take resp.extraHeadersLen,
          chars "Connection: keep-alive\r\nKeep-Alive: timeout=30, max=1000\r\nContent-Length: "]
      else
        [chars "\r\nConnection: keep-alive\r\nKeep-Alive: timeout=30, max=1000\r\nContent-Length: "]) ++
      [intToString (toInt32 bodyLen), chars "\r\n\r\n"]).flatten =
      fullHead resp reason ct bodyLen := by
  have htake : (resp.extraHeaders.getD []).take resp.extraHeadersLen =
      resp.extraHeaders.getD [] := List.take_of_length_le resp.headers_len.ge
  have hh3 :
      chars "\r\nConnection: keep-alive\r\nKeep-Alive: timeout=30, max=1000\r\nContent-Length: " =
      chars "\r\n" ++
        chars "Connection: keep-alive\r\nKeep-Alive: timeout=30, max=1000\r\nContent-Length: " := by
    simp [chars]
  have hcrlf : chars "\r\n" = ['\r', '\n'] := by simp [chars]
  have hspace : chars " " = [' '] := by simp [chars]
  rw [fullHead, htake, hh3, hspace]
  generalize
    chars "Connection: keep-alive\r\nKeep-Alive: timeout=30, max=1000\r\nContent-Length: " = h3e
  generalize chars "HTTP/1.1 " = h1
  generalize chars "\r\nServer: Orbit\r\nContent-Type: " = h2
  generalize chars "\r\n\r\n" = h4
  rw [hcrlf]
  split
  · simp
  · next hnone =>
    have hempty : resp.extraHeaders.getD [] = [] := by
      rw [← List.length_eq_zero_iff, ← resp.headers_len]
      omega
    rw [hempty]
    simp

theorem fullHead_length (resp : OrbitResponse) (reason ct : Text) (bodyLen : Nat) :
    (fullHead resp reason ct bodyLen).length =
      (intToString resp.status).length + reason.length + ct.length + resp.extraHeadersLen +
        (intToString (toInt32 bodyLen)).length + 121 := by
  have h1 : (chars "HTTP/1.1 ").length = 9 := by simp [chars]
  have h2 : (chars "\r\nServer: Orbit\r\nContent-Type: ").length = 31 := by simp [chars]
  have h3 :
      (chars "Connection: keep-alive\r\nKeep-Alive: timeout=30, max=1000\r\nContent-Length: ").length =
        74 := by simp [chars]
  have h4 : (chars "\r\n\r\n").length = 4 := by simp [chars]
  have h5 : (chars "\r\n").length = 2 := by simp [chars]
  have h6 : (chars " ").length = 1 := by simp [chars]
  simp only [fullHead, List.length_append, h1, h2, h3, h4, h5, h6, ← resp.headers_len]
  omega

theorem fastHead_eq (resp : OrbitResponse) {reason ct : Text} (bodyLen : Nat)
    (h : isFast resp reason ct = true) :
    fastHead resp reason ct bodyLen = some (fullHead resp reason ct bodyLen) := by
  simp only [isFast, Bool.and_eq_true, decide_eq_true_eq] at h
  obtain ⟨⟨hreason, hct⟩, hheaders⟩ := h
  obtain ⟨hlo, hhi⟩ := resp.status_int
  obtain ⟨hlo', hhi'⟩ := toInt32_bounds bodyLen
  have hstatus := intToString_length hlo hhi
  have hlength := intToString_length hlo' hhi'
  have hfull := fullHead_length resp reason ct bodyLen
  rw [fastHead, orbitAppendInt_eq hlo hhi, orbitAppendInt_eq hlo' hhi']
  simp only [Option.bind_eq_bind, Option.bind_some]
  rw [putAll_eq, List.nil_append, fastHead_pieces]
  rw [List.nil_append, fastHead_pieces, hfull, headerSize]
  omega

/-- **The head by hand is the head of `snprintf`**, and no byte of it is written behind the
buffer. -/
theorem fastHead_eq_slowHead (resp : OrbitResponse) (reason ct : Text) (bodyLen : Nat)
    (h : isFast resp reason ct = true) :
    fastHead resp reason ct bodyLen = some (slowHead resp reason ct bodyLen) := by
  rw [fastHead_eq resp bodyLen h, slowHead_eq]

/-- A redirect with one header takes the fast path. -/
theorem fastHead_redirect :
    fastHead (orbitResponseAddHeader (orbitResponseCreate ⟨302, by decide⟩ none none)
        (chars "Location") (chars "/new")) (orbitReasonPhrase 302) (chars "text/plain") 5 =
      some (slowHead (orbitResponseAddHeader (orbitResponseCreate ⟨302, by decide⟩ none none)
        (chars "Location") (chars "/new")) (orbitReasonPhrase 302) (chars "text/plain") 5) :=
  fastHead_eq_slowHead _ _ _ _ (by decide +kernel)

/-- Every response is sent, whichever way its head is built, with its staged lines. -/
theorem orbitSendResponse_eq (allowed : Bool) (resp : OrbitResponse) :
    ∃ resp' ct bodyLen body, orbitSendResponse allowed resp =
        some (fullHead resp' (orbitReasonPhrase resp'.status) ct bodyLen, body) ∧
      resp'.extraHeaders = resp.extraHeaders ∧
      (ct = resp.contentType.getD (chars "text/plain") ∨ ct = chars "text/plain") := by
  have hsent : ∀ (resp : OrbitResponse) (ct body : Text) (bodyLen : Nat),
      (if isFast resp (orbitReasonPhrase resp.status) ct then
        (fastHead resp (orbitReasonPhrase resp.status) ct bodyLen).map fun head => (head, body)
      else some (slowHead resp (orbitReasonPhrase resp.status) ct bodyLen, body)) =
        some (fullHead resp (orbitReasonPhrase resp.status) ct bodyLen, body) := by
    intro resp ct body bodyLen
    split
    · next h => rw [fastHead_eq resp _ h]; rfl
    · rw [slowHead_eq]
  cases allowed with
  | true => exact ⟨resp, _, _, _, hsent _ _ _ _, rfl, Or.inl rfl⟩
  | false => exact ⟨{ resp with status := 500, status_int := by decide }, _, _, _, hsent _ _ _ _,
      rfl, Or.inr rfl⟩

end Runtime.Response
