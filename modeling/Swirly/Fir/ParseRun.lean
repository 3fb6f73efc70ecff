import Swirly.Fir.RestRequest

/-!
# Swirly.Fir.ParseRun

**A request may come in pieces.** Everything that `parse` knows of what it has read is in the
request itself, so that reading two pieces is reading them joined (`parse_append`), and any
cut of a request leads to the same result and the same request (`parseChunks_eq`).
-/

namespace Swirly.RestRequest

/-- The bytes, one after the other. -/
def feed (r : RestRequest) (buf : List Byte) : RestRequest :=
  buf.foldl (fun r b => (r.step b).1) r

variable {r : RestRequest} {b : Byte} {buf buf' : List Byte}

@[simp] theorem feed_nil (r : RestRequest) : r.feed [] = r := rfl

@[simp] theorem feed_cons (r : RestRequest) (b : Byte) (buf : List Byte) :
    r.feed (b :: buf) = (r.step b).1.feed buf := rfl

@[simp] theorem feed_append (r : RestRequest) (buf buf' : List Byte) :
    r.feed (buf ++ buf') = (r.feed buf).feed buf' := List.foldl_append

/-- There is no way out of the error state. -/
theorem step_error (h : r.cs = .error) : (r.step b).1 = r := by
  unfold step
  rw [h]
  show { r with cs := .error } = r
  rw [← h]

theorem feed_error (h : r.cs = .error) : r.feed buf = r := by
  induction buf with
  | nil => rfl
  | cons b buf ih => rw [feed_cons, step_error h, ih]

/-- In the error state the loop reads nothing. -/
theorem exec_error (h : r.cs = .error) : r.exec buf = (r, "parse error") := by
  cases buf with
  | nil => rfl
  | cons b buf => exact if_pos h

theorem exec_cons (h : r.cs ≠ .error) (b : Byte) (buf : List Byte) :
    r.exec (b :: buf) = if (r.step b).1.cs = .error then r.step b else (r.step b).1.exec buf :=
  if_neg h

theorem exec_fst (r : RestRequest) (buf : List Byte) : (r.exec buf).1 = r.feed buf := by
  induction buf generalizing r with
  | nil => rfl
  | cons b buf ih =>
      rw [feed_cons]
      by_cases h : r.cs = .error
      · rw [exec_error h, step_error h, feed_error h]
      · rw [exec_cons h]
        by_cases h' : (r.step b).1.cs = .error
        · rw [if_pos h', feed_error h']
        · rw [if_neg h', ih]

/-- The loop over two pieces: the second is read unless the first ends in an error. -/
theorem exec_append (r : RestRequest) (buf buf' : List Byte) :
    r.exec (buf ++ buf') =
      if (r.feed buf).cs = .error then r.exec buf else (r.feed buf).exec buf' := by
  induction buf generalizing r with
  | nil =>
      by_cases h : r.cs = .error
      · rw [List.nil_append, feed_nil, if_pos h, exec_error h, exec_error h]
      · rw [List.nil_append, feed_nil, if_neg h]
  | cons b buf ih =>
      by_cases h : r.cs = .error
      · rw [feed_error h, if_pos h, exec_error h, exec_error h]
      · by_cases h' : (r.step b).1.cs = .error
        · rw [feed_cons, feed_error h', if_pos h', List.cons_append, exec_cons h, exec_cons h,
            if_pos h', if_pos h']
        · rw [feed_cons, List.cons_append, exec_cons h, exec_cons h, if_neg h', if_neg h', ih]

/-! ### Results -/

theorem parse_snd (r : RestRequest) (buf : List Byte) : (r.parse buf).2 = r.feed buf :=
  exec_fst r buf

/-- `parse` returns unless the machine is in the error state. -/
theorem parse_ok_iff {complete : Bool} : (r.parse buf).1 = .ok complete ↔
    (r.feed buf).cs ≠ .error ∧ complete = decide ((r.feed buf).cs = .done) := by
  rw [← exec_fst]
  unfold parse
  dsimp only
  split
  · next h => simp [h]
  · next h => simp [h, eq_comm]

theorem parse_throws_iff : (∃ msg, (r.parse buf).1 = .error msg) ↔ (r.feed buf).cs = .error := by
  rw [← exec_fst]
  unfold parse
  dsimp only
  split
  · next h => simp [h]
  · next h => simp [h]

/-- **Reading two pieces.** -/
theorem parse_append (r : RestRequest) (buf buf' : List Byte) :
    r.parse (buf ++ buf') =
      match r.parse buf with
      | (.ok _, r') => r'.parse buf'
      | (.error msg, r') => (.error msg, r') := by
  unfold parse
  rw [exec_append]
  dsimp only
  rw [exec_fst r buf]
  by_cases h : (r.feed buf).cs = .error
  · rw [if_pos h, if_pos h, exec_fst, if_pos h]
  · rw [if_neg h, if_neg h]

/-- `parse` on a first piece and then on the others, until it throws. -/
def parseChunks (r : RestRequest) (chunk : List Byte) :
    List (List Byte) → Except String Bool × RestRequest
  | [] => r.parse chunk
  | chunk' :: chunks =>
    match r.parse chunk with
    | (.ok _, r') => r'.parseChunks chunk' chunks
    | (.error msg, r') => (.error msg, r')

theorem parseChunks_eq (r : RestRequest) (chunk : List Byte) (chunks : List (List Byte)) :
    r.parseChunks chunk chunks = r.parse (chunk ++ chunks.flatten) := by
  induction chunks generalizing r chunk with
  | nil => rw [List.flatten_nil, List.append_nil]; rfl
  | cons chunk' chunks ih =>
      rw [parse_append, List.flatten_cons]
      unfold parseChunks
      split
      · next r' _ => exact ih r' chunk'
      · rfl

/-- The calls after a call. -/
def parseAll (r : RestRequest) (bufs : List (List Byte)) : RestRequest :=
  bufs.foldl (fun r buf => (r.parse buf).2) r

theorem parseAll_error (h : r.cs = .error) (bufs : List (List Byte)) : r.parseAll bufs = r := by
  induction bufs with
  | nil => rfl
  | cons buf bufs ih =>
      show (r.parse buf).2.parseAll bufs = r
      rw [parse_snd, feed_error h, ih]

/-- **Parsing in pieces is parsing the whole**: after a reset, any cut of a text into pieces
gives the result of the text and leaves the same request, and after an exception every
further call throws. -/
theorem parse_incremental (r : RestRequest) (clear : Bool) (chunk : List Byte)
    (chunks : List (List Byte)) :
    (r.reset clear).parseChunks chunk chunks = (r.reset clear).parse (chunk ++ chunks.flatten) ∧
    ∀ msg r', (r.reset clear).parseChunks chunk chunks = (.error msg, r') →
      ∀ bufs buf, ∃ msg', ((r'.parseAll bufs).parse buf).1 = .error msg' := by
  refine ⟨parseChunks_eq _ _ _, fun msg r' hthrow bufs buf => ?_⟩
  rw [parseChunks_eq] at hthrow
  have herror : r'.cs = .error := by
    have hr' := parse_snd (r.reset clear) (chunk ++ chunks.flatten)
    rw [hthrow] at hr'
    change r' = _ at hr'
    rw [hr']
    exact parse_throws_iff.mp ⟨msg, by rw [hthrow]⟩
  rw [parseAll_error herror]
  exact parse_throws_iff.mpr (by rw [feed_error herror]; exact herror)

end Swirly.RestRequest
