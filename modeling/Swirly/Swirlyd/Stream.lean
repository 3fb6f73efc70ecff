import Swirly.Ash.Text

/-!
# Swirly.Swirlyd.Stream

**The response as it is written.** `OStream` writes a response into the send buffer of a
connection: a head with room for the length of the body, and then the body. `reset` begins
again and forgets whatever the buffer holds; `setContentLength` goes back to write the length
into the head. Allocation does not fail here.

The digits of the length are written from the last to the first into a gap of blanks. A gap
that is as wide as the number is filled with it (`StreamBuf.writeDigits_eq`), and the blanks
that are left over come before it (`OStream.buf_setContentLength`).
-/

namespace Swirly

namespace StreamBuf

/-- The loop of `setContentLength`: the digits of `len`, the last first, from `pos` on
backwards. -/
def writeDigits : Nat → List Byte → Nat → Nat → List Byte
  | 0, buf, _, _ => buf
  | n + 1, buf, pos, len =>
    let buf := buf.set (pos - 1) (Fin.ofNat 256 (48 + len % 10))
    if len / 10 > 0 then writeDigits n buf (pos - 1) (len / 10) else buf

/-- `setContentLength`: the length is written backwards over the blanks. There is a turn for each
digit, and so at most `len + 1` of them. -/
def setContentLength (buf : List Byte) (pos len : Nat) : List Byte :=
  writeDigits (len + 1) buf pos len

/-- What is at `pos` and after it stays. -/
theorem drop_writeDigits (n : Nat) (buf : List Byte) {pos k : Nat} (len : Nat) (hk : 0 < k)
    (hpos : pos ≤ k) : (writeDigits n buf pos len).drop k = buf.drop k := by
  induction n generalizing buf pos len with
  | zero => rfl
  | succ n ih =>
      have hset : ∀ b, (buf.set (pos - 1) b).drop k = buf.drop k :=
        fun b => List.drop_set_of_lt (by omega)
      unfold writeDigits
      dsimp only
      split
      · rw [ih _ _ (by omega), hset]
      · exact hset _

/-- **Going backwards from the end of a gap as wide as the number fills it with the number**,
and nothing around the gap changes. -/
theorem writeDigits_eq (n : Nat) (pre gap post : List Byte) (len : Nat) (hn : len < n)
    (hgap : gap.length = (natText len).length) :
    writeDigits n (pre ++ gap ++ post) (pre.length + gap.length) len =
      pre ++ natText len ++ post := by
  induction n generalizing gap post len with
  | zero => exact absurd hn (Nat.not_lt_zero len)
  | succ n ih =>
      obtain ⟨gap, x, rfl⟩ : ∃ gap' x, gap = gap' ++ [x] := by
        have hne : gap ≠ [] := by
          rintro rfl
          exact natText_ne_nil len (List.length_eq_zero_iff.mp hgap.symm)
        exact ⟨gap.dropLast, gap.getLast hne, (List.dropLast_concat_getLast hne).symm⟩
      -- The last byte of the gap takes the last digit, and the gap ends one byte earlier.
      have hlast : pre.length + (gap ++ [x]).length - 1 = pre.length + gap.length := by
        rw [List.length_append, List.length_singleton]
        omega
      have hset : ∀ b : Byte, (pre ++ (gap ++ [x]) ++ post).set (pre.length + gap.length) b =
          pre ++ gap ++ ([b] ++ post) := by
        intro b
        simp
      unfold writeDigits
      dsimp only
      rw [hlast, hset]
      split
      · have hle : 10 ≤ len := by omega
        rw [natText_of_le hle] at hgap ⊢
        rw [ih gap _ (len / 10) (by omega) (by simpa using hgap)]
        simp only [List.append_assoc]
      · have hlt : len < 10 := by omega
        rw [natText_of_lt hlt] at hgap ⊢
        have hnil : gap = [] := by simpa using hgap
        rw [hnil, Nat.mod_eq_of_lt hlt, List.append_nil, List.append_assoc]

end StreamBuf

/-- `OStream` with the send buffer it writes to. -/
structure OStream where
  buf : List Byte
  headSize : Nat
  lengthAt : Nat
  /-- The status that `reset` wrote last; the source has it in the bytes only. -/
  status : Int
  deriving DecidableEq, Repr

namespace OStream

/-- The head of a response, before the length is known. -/
def head (status : Int) (reason : List Byte) : List Byte :=
  bytes "HTTP/1.1 " ++ intText status ++ bytes " " ++ reason
    ++ bytes "\r\nContent-Length:           \r\n\r\n"

/-- `reset`: the buffer is begun again with a head that has blanks for the length. Where the
length goes is counted from the end of the head. -/
def reset (_out : OStream) (status : Int) (reason : List Byte) : OStream :=
  let buf := head status reason
  { buf, headSize := buf.length, lengthAt := buf.length - 4, status }

/-- `xsputn`, and `overflow` for a single byte. -/
def write (out : OStream) (s : List Byte) : OStream := { out with buf := out.buf ++ s }

/-- `setContentLength`: what was written behind the head is counted, and the digits are put over
the blanks in the head. -/
def setContentLength (out : OStream) : OStream :=
  { out with
    buf := StreamBuf.setContentLength out.buf out.lengthAt (out.buf.length - out.headSize) }

/-- What follows the head, up to the end of what was written. -/
def body (out : OStream) : List Byte := out.buf.drop out.headSize

variable {out : OStream}

/-- Beginning again forgets what was written. -/
theorem reset_eq (out out' : OStream) (status : Int) (reason : List Byte) :
    out.reset status reason = out'.reset status reason := rfl

theorem headSize_pos (out : OStream) (status : Int) (reason : List Byte) :
    0 < (out.reset status reason).headSize := by
  have hlen : (bytes "HTTP/1.1 ").length = 9 := by decide
  simp only [reset, head, List.length_append, hlen]
  omega

/-- What is written into the head leaves the body alone. -/
theorem body_setContentLength (hhead : 0 < out.headSize) (hat : out.lengthAt ≤ out.headSize) :
    out.setContentLength.body = out.body :=
  StreamBuf.drop_writeDigits _ _ _ hhead hat

/-- The body of a response that is begun again. -/
theorem body_write_reset (out : OStream) (status : Int) (reason s : List Byte) :
    (((out.reset status reason).write s).setContentLength).body = s := by
  rw [body_setContentLength]
  · exact List.drop_left
  · exact out.headSize_pos status reason
  · exact Nat.sub_le _ _

/-! ### The length of the body -/

/-- The head of a response up to the length. -/
def headStart (status : Int) (reason : List Byte) : List Byte :=
  bytes "HTTP/1.1 " ++ intText status ++ bytes " " ++ reason ++ bytes "\r\nContent-Length:"

/-- The head of a response with `value` for the length. -/
def headWith (status : Int) (reason value : List Byte) : List Byte :=
  headStart status reason ++ value ++ bytes "\r\n\r\n"

/-- Blanks, as many as the field for the length has to begin with. -/
def blanks (n : Nat) : List Byte := List.replicate n 32

theorem head_eq_headWith (status : Int) (reason : List Byte) :
    head status reason = headWith status reason (blanks 11) := by
  have hgap : bytes "\r\nContent-Length:           \r\n\r\n" =
      bytes "\r\nContent-Length:" ++ blanks 11 ++ bytes "\r\n\r\n" := by decide
  unfold head headWith headStart
  rw [hgap]
  simp only [List.append_assoc]

/-- The length ends where the blanks end. -/
theorem lengthAt_reset (out : OStream) (status : Int) (reason : List Byte) :
    (out.reset status reason).lengthAt = (headStart status reason).length + 11 := by
  have hend : (bytes "\r\n\r\n").length = 4 := by decide
  have hlen : (out.reset status reason).lengthAt = (head status reason).length - 4 := rfl
  rw [hlen, head_eq_headWith, headWith, List.length_append, List.length_append, hend, blanks,
    List.length_replicate]
  rfl

theorem blanks_add (m n : Nat) : blanks (m + n) = blanks m ++ blanks n :=
  (List.replicate_append_replicate).symm

/-- What is written between `reset` and `setContentLength` comes after the head. -/
theorem foldl_write (out : OStream) (ss : List (List Byte)) :
    ss.foldl write out = { out with buf := out.buf ++ ss.flatten } := by
  induction ss generalizing out with
  | nil => rw [List.foldl_nil, List.flatten_nil, List.append_nil]
  | cons s ss ih =>
      rw [List.foldl_cons, ih, List.flatten_cons, ← List.append_assoc]
      rfl

/-- The bytes around two gaps of one width are the same. -/
theorem getElem?_around {pre gap gap' post : List Byte} (hgap : gap.length = gap'.length) {i : Nat}
    (hi : i < pre.length ∨ pre.length + gap.length ≤ i) :
    (pre ++ gap ++ post)[i]? = (pre ++ gap' ++ post)[i]? := by
  rcases hi with hi | hi
  · simp only [List.append_assoc, List.getElem?_append_left hi]
  · have hlen : (pre ++ gap).length = (pre ++ gap').length := by
      rw [List.length_append, List.length_append, hgap]
    have hle : (pre ++ gap).length ≤ i := by rwa [List.length_append]
    rw [List.getElem?_append_right hle, List.getElem?_append_right (hlen ▸ hle), hlen]

/-- The response before the length is written back: its length takes the last of the blanks. -/
theorem buf_foldl_write (out : OStream) (status : Int) (reason : List Byte)
    (ss : List (List Byte)) {k m : Nat} (hkm : k + m = 11) :
    (ss.foldl write (out.reset status reason)).buf =
      (headStart status reason ++ blanks k) ++ blanks m ++ (bytes "\r\n\r\n" ++ ss.flatten) := by
  have hbuf : (ss.foldl write (out.reset status reason)).buf =
      head status reason ++ ss.flatten := by
    rw [foldl_write]
    rfl
  rw [hbuf, head_eq_headWith, headWith, ← hkm, blanks_add]
  simp only [List.append_assoc]

/-- The response after it. -/
theorem setContentLength_foldl_write (out : OStream) (status : Int) (reason : List Byte)
    (ss : List (List Byte)) {k : Nat} (hk : k + (natText ss.flatten.length).length = 11) :
    (ss.foldl write (out.reset status reason)).setContentLength.buf =
      (headStart status reason ++ blanks k) ++ natText ss.flatten.length ++
        (bytes "\r\n\r\n" ++ ss.flatten) := by
  have hwidth : (blanks (natText ss.flatten.length).length).length =
      (natText ss.flatten.length).length := List.length_replicate
  have hat : (out.reset status reason).lengthAt = (headStart status reason ++ blanks k).length +
      (blanks (natText ss.flatten.length).length).length := by
    rw [lengthAt_reset, hwidth, List.length_append, blanks, List.length_replicate]
    omega
  have hsize : (ss.foldl write (out.reset status reason)).buf.length -
      (out.reset status reason).headSize = ss.flatten.length := by
    rw [foldl_write]
    exact (congrArg (· - _) List.length_append).trans (Nat.add_sub_cancel_left _ _)
  have hset : (ss.foldl write (out.reset status reason)).setContentLength.buf =
      StreamBuf.setContentLength (ss.foldl write (out.reset status reason)).buf
        (out.reset status reason).lengthAt
        ((ss.foldl write (out.reset status reason)).buf.length -
          (out.reset status reason).headSize) := by
    rw [foldl_write]
    rfl
  rw [hset, hsize, buf_foldl_write out status reason ss hk, hat]
  exact StreamBuf.writeDigits_eq _ _ _ _ _ (Nat.lt_succ_self _) hwidth

/-- **The length that is written back is that of the body, and it touches nothing else.** What
is written back is below `10 ^ 10`, and so the blank after the colon stays. -/
theorem buf_setContentLength (out : OStream) (status : Int) (reason : List Byte)
    (ss : List (List Byte)) (hlen : ss.flatten.length < 10 ^ 10) :
    (ss.foldl write (out.reset status reason)).buf =
      headWith status reason (blanks 11) ++ ss.flatten ∧
    (∃ k, 1 ≤ k ∧ k + (natText ss.flatten.length).length = 11 ∧
      (ss.foldl write (out.reset status reason)).setContentLength.buf =
        headWith status reason (blanks k ++ natText ss.flatten.length) ++ ss.flatten) ∧
    ∀ i, (i + 10 < (out.reset status reason).lengthAt ∨
        (out.reset status reason).lengthAt ≤ i) →
      (ss.foldl write (out.reset status reason)).setContentLength.buf[i]? =
        (ss.foldl write (out.reset status reason)).buf[i]? := by
  have hwidth : (natText ss.flatten.length).length ≤ 10 :=
    (length_natText_le_iff (by decide)).mpr hlen
  obtain ⟨k, hk, hkm⟩ : ∃ k, 1 ≤ k ∧ k + (natText ss.flatten.length).length = 11 :=
    ⟨11 - (natText ss.flatten.length).length, by omega, by omega⟩
  have hafter := setContentLength_foldl_write out status reason ss hkm
  refine ⟨?_, ⟨k, hk, hkm, ?_⟩, fun i hi => ?_⟩
  · rw [buf_foldl_write out status reason ss (Nat.zero_add 11), headWith]
    simp only [blanks, List.replicate_zero, List.append_nil, List.append_assoc]
  · rw [hafter, headWith]
    simp only [List.append_assoc]
  · rw [hafter, buf_foldl_write out status reason ss hkm]
    have hgap : (natText ss.flatten.length).length =
        (blanks (natText ss.flatten.length).length).length := List.length_replicate.symm
    refine getElem?_around hgap ?_
    rw [lengthAt_reset] at hi
    rw [List.length_append, blanks, List.length_replicate]
    omega

/-- An empty list of records, written as two characters. -/
theorem brackets_written :
    ([bytes "[", bytes "]"].foldl write (reset ⟨[], 0, 0, 0⟩ 200 (bytes "OK"))).buf =
      headWith 200 (bytes "OK") (blanks 11) ++ bytes "[]" ∧
    ∃ k, 1 ≤ k ∧ k + (natText 2).length = 11 ∧
      ([bytes "[", bytes "]"].foldl write
          (reset ⟨[], 0, 0, 0⟩ 200 (bytes "OK"))).setContentLength.buf =
        headWith 200 (bytes "OK") (blanks k ++ natText 2) ++ bytes "[]" := by
  have h := buf_setContentLength ⟨[], 0, 0, 0⟩ 200 (bytes "OK") [bytes "[", bytes "]"] (by decide)
  exact ⟨h.1, h.2.1⟩

end OStream

end Swirly
