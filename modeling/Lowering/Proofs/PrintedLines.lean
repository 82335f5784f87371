import Mathlib
import Lowering.Container.Printer

/-! What becomes of a printed line. Values reach the output piece by piece, and any piece may be the one that
does not fit. Whether the line goes through depends on its bytes alone, as if it came in one piece. -/

namespace Lowering.Container

namespace Sink

variable {sink : Sink} {piece : String} {size more : Nat}

/-- There is room for some more bytes. -/
def Spares (sink : Sink) (size : Nat) : Prop :=
  ∀ room ∈ sink.room, sink.written.utf8ByteSize + size ≤ room

/-- The sink with a text behind what it holds. -/
def extend (sink : Sink) (text : String) : Sink :=
  { sink with written := sink.written ++ text }

theorem put_of_spares (spares : sink.Spares piece.utf8ByteSize) : sink.put piece = .ok (sink.extend piece) := by
  cases limit : sink.room with
  | none => simp [put, limit, extend]
  | some room =>
    have fits := spares room limit
    simp [put, limit, extend, fits]

theorem put_of_full (full : ¬ sink.Spares piece.utf8ByteSize) : sink.put piece = .error (.output "full") := by
  cases limit : sink.room with
  | none => simp [Spares, limit] at full
  | some room =>
    have excess : room < sink.written.utf8ByteSize + piece.utf8ByteSize := by simpa [Spares, limit] using full
    simp [put, limit, excess]

theorem spares_extend : (sink.extend piece).Spares more ↔ sink.Spares (piece.utf8ByteSize + more) := by
  simp [Spares, extend, Nat.add_assoc]

theorem Spares.le (spares : sink.Spares size) (less : more ≤ size) : sink.Spares more :=
  fun room limit => Nat.le_trans (Nat.add_le_add_left less _) (spares room limit)

/-- Two pieces fare as one. -/
theorem put_put (sink : Sink) (first last : String) :
    (sink.put first >>= fun after => after.put last) = sink.put (first ++ last) := by
  have sizes : (first ++ last).utf8ByteSize = first.utf8ByteSize + last.utf8ByteSize := String.utf8ByteSize_append
  by_cases both : sink.Spares (first.utf8ByteSize + last.utf8ByteSize)
  · rw [put_of_spares (both.le (Nat.le_add_right _ _)), put_of_spares (sizes ▸ both)]
    change (sink.extend first).put last = _
    rw [put_of_spares (spares_extend.mpr both)]
    simp [extend, String.append_assoc]
  · have full : sink.put (first ++ last) = .error (.output "full") := put_of_full (sizes ▸ both)
    by_cases one : sink.Spares first.utf8ByteSize
    · rw [put_of_spares one, full]
      exact put_of_full (mt spares_extend.mp both)
    · rw [put_of_full one, full]
      rfl

/-- Any number of pieces fares as one, if at least one is put, since a sink is not looked at otherwise. -/
theorem put_all (sink : Sink) (pieces : List String) (last : String) :
    (pieces.foldlM put sink >>= fun after => after.put last) = sink.put (String.join pieces ++ last) := by
  induction pieces generalizing sink with
  | nil => simp
  | cons piece pieces ih =>
    rw [List.foldlM_cons, bind_assoc, String.join_cons, String.append_assoc, ← put_put]
    exact bind_congr ih

end Sink

/-- A value of any type that can be shown. -/
structure Shown where
  {type : Type}
  [display : Display type]
  value : type

attribute [instance] Shown.display

namespace Printer

/-- Writes some values, one after the other. -/
def writeAll (printer : Printer) (values : List Shown) : Except Halt Printer :=
  values.foldlM (fun printer shown => printer.write shown.value) printer

theorem writeAll_eq (sink : Sink) (values : List Shown) :
    (⟨sink⟩ : Printer).writeAll values =
      fatal (mk <$> (values.flatMap fun shown => Display.pieces shown.value).foldlM Sink.put sink) := by
  induction values generalizing sink with
  | nil => rfl
  | cons shown values ih =>
    simp only [writeAll, List.foldlM_cons, List.flatMap_cons, List.foldlM_append, write]
    cases (Display.pieces shown.value).foldlM Sink.put sink with
    | error fault => rfl
    | ok after => exact ih after

/-- What some values and the end of their line are shown as. -/
def lineOf (values : List Shown) : String :=
  String.join (values.map fun shown => Display.text shown.value) ++ "\n"

theorem join_pieces (values : List Shown) :
    String.join (values.flatMap fun shown => Display.pieces shown.value) =
      String.join (values.map fun shown => Display.text shown.value) := by
  induction values with
  | nil => rfl
  | cons shown values ih =>
    rw [List.flatMap_cons, String.join_append, ih, List.map_cons, String.join_cons]
    rfl

theorem size_lineOf (values : List Shown) : (lineOf values).utf8ByteSize =
    (values.map fun shown => (Display.text shown.value).utf8ByteSize).sum + 1 := by
  have joined (texts : List String) : (String.join texts).utf8ByteSize = (texts.map String.utf8ByteSize).sum := by
    induction texts with
    | nil => rfl
    | cons text texts ih => rw [String.join_cons, String.utf8ByteSize_append, ih, List.map_cons, List.sum_cons]
  rw [lineOf, String.utf8ByteSize_append, joined, List.map_map]
  rfl

/-- A printed line fares as if it came in one piece. -/
theorem finish_writeAll (sink : Sink) (values : List Shown) :
    ((⟨sink⟩ : Printer).writeAll values >>= finish) = fatal (sink.put (lineOf values) >>= Sink.flush) := by
  rw [writeAll_eq, lineOf, ← join_pieces, ← Sink.put_all]
  cases (values.flatMap fun shown => Display.pieces shown.value).foldlM Sink.put sink with
  | error fault => rfl
  | ok after => rfl

/-- To end a line is to do without the sink that it leaves. -/
theorem endLine_writeAll (sink : Sink) (values : List Shown) :
    ((⟨sink⟩ : Printer).writeAll values >>= endLine) =
      ((⟨sink⟩ : Printer).writeAll values >>= finish).map fun _ => () := by
  cases (⟨sink⟩ : Printer).writeAll values with
  | error halt => rfl
  | ok printer => rfl

theorem ended_ok {answer : Except Halt Sink} :
    (answer.map fun _ => ()) = .ok () ↔ ∃ finished, answer = .ok finished := by
  cases answer <;> simp [Except.map]

theorem ended_error {answer : Except Halt Sink} {halt : Halt} :
    (answer.map fun _ => ()) = .error halt ↔ answer = .error halt := by
  cases answer <;> simp [Except.map]

/-- The end of a program whose output failed. -/
def failed (cause : String) : Halt :=
  ⟨"< Exception: output failed: " ++ cause ++ " >"⟩

theorem halt_output (cause : String) : (Fault.output cause).halt = failed cause := by
  change Halt.mk ("< Exception: " ++ ("output failed: " ++ cause) ++ " >") = _
  rw [← String.append_assoc]
  rfl

variable {sink : Sink} {values : List Shown} {halt : Halt} {finished : Sink}

theorem finish_of_spares (spares : sink.Spares (lineOf values).utf8ByteSize) :
    ((⟨sink⟩ : Printer).writeAll values >>= finish) =
      if sink.flushes then .ok (sink.extend (lineOf values)) else .error (failed sink.refusal) := by
  rw [finish_writeAll, Sink.put_of_spares spares, ← halt_output]
  change fatal (sink.extend (lineOf values)).flush = _
  cases flushed : sink.flushes <;> simp [Sink.flush, Sink.extend, flushed, fatal, Except.mapError]

theorem finish_of_full (full : ¬ sink.Spares (lineOf values).utf8ByteSize) :
    ((⟨sink⟩ : Printer).writeAll values >>= finish) = .error (failed "full") := by
  rw [finish_writeAll, Sink.put_of_full full, ← halt_output]
  rfl

theorem finish_ok : ((⟨sink⟩ : Printer).writeAll values >>= finish) = .ok finished ↔
    sink.Spares (lineOf values).utf8ByteSize ∧ sink.flushes = true ∧ sink.extend (lineOf values) = finished := by
  by_cases spares : sink.Spares (lineOf values).utf8ByteSize
  · rw [finish_of_spares spares]
    cases sink.flushes <;> simp [spares]
  · simp [finish_of_full spares, spares]

theorem finish_error : ((⟨sink⟩ : Printer).writeAll values >>= finish) = .error halt ↔
    ∃ cause, halt = failed cause ∧ (¬ sink.Spares (lineOf values).utf8ByteSize ∧ cause = "full" ∨
      sink.Spares (lineOf values).utf8ByteSize ∧ sink.flushes = false ∧ cause = sink.refusal) := by
  by_cases spares : sink.Spares (lineOf values).utf8ByteSize
  · rw [finish_of_spares spares]
    cases sink.flushes <;> simp [spares, @eq_comm _ halt]
  · simp [finish_of_full spares, spares, @eq_comm _ halt]

/-- A printed line does not depend on the pieces in which it is printed. Values that are written one after
the other and then ended go through exactly if the bytes of their texts and one more find room and the
sink is flushed. The sink then holds the texts in their order and a line break behind them. In all other
cases the program ends: with the fault of the flush if everything found room, and else as the sink
is full. To end the line without asking for the sink makes no difference, and neither does what the
values are, or in what pieces they are shown, as long as they read the same together. -/
theorem line_by_bytes (sink : Sink) (values : List Shown) :
    let size := (values.map fun shown => (Display.text shown.value).utf8ByteSize).sum + 1
    let printed := (⟨sink⟩ : Printer).writeAll values
    (∀ finished, (printed >>= finish) = .ok finished ↔ sink.Spares size ∧ sink.flushes = true ∧
      { sink with written :=
        sink.written ++ (String.join (values.map fun shown => Display.text shown.value) ++ "\n") } = finished) ∧
    (∀ halt, (printed >>= finish) = .error halt ↔
      ∃ cause, halt = ⟨"< Exception: output failed: " ++ cause ++ " >"⟩ ∧
        (¬ sink.Spares size ∧ cause = "full" ∨ sink.Spares size ∧ sink.flushes = false ∧ cause = sink.refusal)) ∧
    ((printed >>= endLine) = .ok () ↔ ∃ finished, (printed >>= finish) = .ok finished) ∧
    (∀ halt, (printed >>= endLine) = .error halt ↔ (printed >>= finish) = .error halt) ∧
    ∀ others, String.join (others.map fun shown => Display.text shown.value) =
        String.join (values.map fun shown => Display.text shown.value) →
      ((⟨sink⟩ : Printer).writeAll others >>= finish) = (printed >>= finish) ∧
      ((⟨sink⟩ : Printer).writeAll others >>= endLine) = (printed >>= endLine) := by
  intro size printed
  have sized : (lineOf values).utf8ByteSize = size := size_lineOf values
  have ended : (printed >>= endLine) = (printed >>= finish).map fun _ => () := endLine_writeAll sink values
  refine ⟨fun finished => ?_, fun halt => ?_, ?_, fun halt => ?_, fun others same => ?_⟩
  · rw [← sized]
    exact finish_ok
  · rw [← sized]
    exact finish_error
  · rw [ended, ended_ok]
  · rw [ended, ended_error]
  · have lines : lineOf others = lineOf values := congrArg (· ++ "\n") same
    have finished : ((⟨sink⟩ : Printer).writeAll others >>= finish) = (printed >>= finish) := by
      rw [finish_writeAll, lines, ← finish_writeAll]
    exact ⟨finished, by rw [ended, endLine_writeAll, finished]⟩

/-- The line break is the last byte that there is room for. -/
example : ((⟨{ room := some 7 }⟩ : Printer).writeAll [⟨Growable.ofList [(1 : Int64), 2]⟩] >>= finish) =
    .ok { room := some 7, written := "[1, 2]\n" } :=
  rfl

end Printer

end Lowering.Container
