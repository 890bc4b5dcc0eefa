import Mathlib.Data.List.Infix
import UvaAnalysis.Server

/-!
# Room in a sink

A sink takes the first of the bytes that it is given, as many as it has room for, and it does not
matter in how many parts they are given (`Sink.fitting_append`).  A report is written in many
pieces, and the sink may become full in any of them: it takes what it still has room for and refuses
the rest, and nothing is written after that.  What was written then is the beginning of all that was
to be written, whatever the pieces are (`Sink.writePieces_eq`).  So writing in pieces is no
different from sending a report as a whole (`Sink.deliver_eq_send`).
-/

namespace UvaAnalysis

/-! ### Room in a sink -/

namespace Sink

variable {sink : Sink} {bytes more : List UInt8}

/-- The sink after it was given some bytes: it has taken as many of them as there was room for. -/
def took (sink : Sink) (bytes : List UInt8) : Sink :=
  { sink with written := sink.written ++ sink.fitting bytes }

/-- No room is needed for nothing. -/
lemma fitting_nil (sink : Sink) : sink.fitting [] = [] := by
  unfold fitting
  split
  · rfl
  · exact List.take_nil

/-- A sink that takes nothing of some bytes is unchanged. -/
lemma took_of_fitting_nil (h : sink.fitting bytes = []) : sink.took bytes = sink := by
  rw [took, h, List.append_nil]

/-- What a sink takes of some bytes are the first of them. -/
lemma isPrefix_fitting (sink : Sink) (bytes : List UInt8) : sink.fitting bytes <+: bytes := by
  unfold fitting
  split
  · exact List.prefix_refl _
  · exact List.take_prefix ..

/-- There is room for as many bytes if they are given in two parts. -/
lemma fitting_append (sink : Sink) (bytes more : List UInt8) :
    sink.fitting (bytes ++ more) = sink.fitting bytes ++ (sink.took bytes).fitting more := by
  obtain ⟨capacity, acknowledges, written⟩ := sink
  cases capacity with
  | none => rfl
  | some capacity =>
    simp only [took, fitting, List.take_append, List.length_append, List.length_take]
    congr 2
    omega

/-- A sink takes bytes one after the other, so it makes no difference how they are divided. -/
lemma took_append (sink : Sink) (bytes more : List UInt8) :
    sink.took (bytes ++ more) = (sink.took bytes).took more := by
  simp only [took, fitting_append, List.append_assoc]

/-- Bytes in two parts fit when the first part does and then the second one. -/
lemma fitting_append_eq_iff :
    sink.fitting (bytes ++ more) = bytes ++ more ↔
      sink.fitting bytes = bytes ∧ (sink.took bytes).fitting more = more := by
  rw [fitting_append]
  constructor
  · intro h
    have hbytes := (isPrefix_fitting sink bytes).length_le
    have hmore := (isPrefix_fitting (sink.took bytes) more).length_le
    have hlength := congrArg List.length h
    rw [List.length_append, List.length_append] at hlength
    exact List.append_inj h (by omega)
  · rintro ⟨hbytes, hmore⟩
    rw [hbytes, hmore]

/-- Bytes fit when as many are taken as there are. -/
lemma fitting_eq_iff : sink.fitting bytes = bytes ↔ bytes.length ≤ (sink.fitting bytes).length :=
  ⟨fun h => (congrArg List.length h).ge, (isPrefix_fitting sink bytes).eq_of_length_le⟩

/-- A sink that left something over is full. -/
lemma fitting_of_cut (h : sink.fitting bytes ≠ bytes) (more : List UInt8) :
    (sink.took bytes).fitting more = [] := by
  obtain ⟨capacity, acknowledges, written⟩ := sink
  cases capacity with
  | none => exact absurd rfl h
  | some capacity =>
    rw [Ne, fitting_eq_iff] at h
    simp only [fitting, List.length_take] at h
    simp only [took, fitting, List.length_append, List.length_take, List.take_eq_nil_iff]
    omega

/-- What sending some bytes comes to: they are taken, up to the room that there is, and the sink
fails unless they fit and are acknowledged. -/
lemma send_eq (sink : Sink) (bytes : List UInt8) :
    sink.send bytes =
      (sink.took bytes,
        if sink.fitting bytes = bytes then
          if sink.acknowledges then none else some .reportRefused
        else some .reportTruncated) := by
  rw [send]
  by_cases hbytes : sink.fitting bytes = bytes
  · have hlength := fitting_eq_iff.mp hbytes
    rw [if_neg (by omega), if_pos hbytes]
    rfl
  · have hlength := mt fitting_eq_iff.mpr hbytes
    rw [if_pos (by omega), if_neg hbytes]
    rfl

/-! ### Writing in pieces -/

/-- One write: the sink then, and the bytes that are left over.  Bytes are refused when there is no
room for any of them. -/
def write? (sink : Sink) (bytes : List UInt8) : Option (Sink × List UInt8) :=
  if sink.fitting bytes = [] then none
  else some (sink.took bytes, bytes.drop (sink.fitting bytes).length)

/-- A write that is not refused takes something. -/
lemma length_left_lt {sink' : Sink} {left : List UInt8}
    (h : sink.write? bytes = some (sink', left)) : left.length < bytes.length := by
  unfold write? at h
  split_ifs at h with hnone
  have hpos := List.length_pos_iff.mpr hnone
  have hle := (isPrefix_fitting sink bytes).length_le
  obtain rfl := (Prod.mk.inj (Option.some.inj h)).2
  rw [List.length_drop]
  omega

/-- Write some bytes, and after each write those that are left over, until all are taken or some are
refused; and whether all were taken. -/
def writeAll (sink : Sink) (bytes : List UInt8) : Sink × Bool :=
  if bytes = [] then (sink, true)
  else
    match _h : sink.write? bytes with
    | none => (sink, false)
    | some (sink, left) => sink.writeAll left
termination_by bytes.length
decreasing_by exact length_left_lt _h

/-- Write some pieces in order, up to the first that is not taken; and whether all were. -/
def writePieces : Sink → List (List UInt8) → Sink × Bool
  | sink, [] => (sink, true)
  | sink, piece :: others =>
    match sink.writeAll piece with
    | (sink, true) => sink.writePieces others
    | (sink, false) => (sink, false)

/-- Write a report in pieces and wait until it is acknowledged. -/
def deliver (sink : Sink) (pieces : List (List UInt8)) : Sink × Option AnalysisError :=
  match sink.writePieces pieces with
  | (sink, false) => (sink, some .reportTruncated)
  | (sink, true) => (sink, if sink.acknowledges then none else some .reportRefused)

/-- A sink takes what it has room for, in however many writes. -/
lemma writeAll_eq (sink : Sink) (bytes : List UInt8) :
    sink.writeAll bytes = (sink.took bytes, decide (sink.fitting bytes = bytes)) := by
  fun_induction writeAll sink bytes with
  | case1 sink => simp [took, fitting_nil]
  | case2 sink bytes hne hwrite =>
    have hnone : sink.fitting bytes = [] := by simpa [write?] using hwrite
    rw [took_of_fitting_nil hnone, hnone, decide_eq_false (Ne.symm hne)]
  | case3 sink bytes hne sink' left hwrite ih =>
    unfold write? at hwrite
    split_ifs at hwrite with hnone
    obtain ⟨rfl, rfl⟩ := Prod.mk.inj (Option.some.inj hwrite)
    rw [ih]
    by_cases hbytes : sink.fitting bytes = bytes
    · have hleft : bytes.drop (sink.fitting bytes).length = [] :=
        List.drop_eq_nil_of_le (fitting_eq_iff.mp hbytes)
      rw [hleft, took_of_fitting_nil (fitting_nil _), fitting_nil, decide_eq_true rfl,
        decide_eq_true hbytes]
    · -- After a write that was cut there is no room for what is left over.
      have hleft : bytes.drop (sink.fitting bytes).length ≠ [] :=
        mt (fitting_eq_iff.mpr ∘ List.drop_eq_nil_iff.mp) hbytes
      have hfull := fitting_of_cut hbytes (bytes.drop (sink.fitting bytes).length)
      rw [took_of_fitting_nil hfull, hfull, decide_eq_false hleft.symm, decide_eq_false hbytes]

/-- It does not matter which pieces some bytes are written in. -/
theorem writePieces_eq (sink : Sink) (pieces : List (List UInt8)) :
    sink.writePieces pieces =
      (sink.took pieces.flatten, decide (sink.fitting pieces.flatten = pieces.flatten)) := by
  induction pieces generalizing sink with
  | nil => simp [writePieces, took, fitting_nil]
  | cons piece others ih =>
    rw [writePieces, writeAll_eq, List.flatten_cons]
    by_cases hpiece : sink.fitting piece = piece
    · simp only [hpiece, decide_true, ih, took_append, fitting_append_eq_iff, true_and]
    · simp only [hpiece, decide_false, took_append, fitting_append_eq_iff, false_and,
        took_of_fitting_nil (fitting_of_cut hpiece _)]

/-- A report that is written in pieces is sent. -/
theorem deliver_eq_send (sink : Sink) (pieces : List (List UInt8)) :
    sink.deliver pieces = sink.send pieces.flatten := by
  rw [deliver, writePieces_eq, send_eq]
  by_cases hpieces : sink.fitting pieces.flatten = pieces.flatten
  · rw [decide_eq_true hpieces, if_pos hpieces]
    rfl
  · rw [decide_eq_false hpieces, if_neg hpieces]

end Sink

end UvaAnalysis
