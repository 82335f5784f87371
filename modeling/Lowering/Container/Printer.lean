import Lowering.Container.Display

/-! Printing lines. A printer passes the pieces of every value on to where the output goes and
ends a line by a line break and a flush; output that fails ends the program. -/

namespace Lowering.Container

/-- Where output goes: text that may not outgrow a number of bytes, and that may refuse to be
flushed. -/
structure Sink where
  room : Option Nat := none
  flushes : Bool := true
  /-- What is reported where the text is not flushed. -/
  refusal : String := "no flush"
  written : String := ""
deriving DecidableEq, Repr

namespace Sink

/-- Takes a piece whole or not at all. -/
def put (sink : Sink) (piece : String) : Except Fault Sink :=
  let written := sink.written ++ piece
  let fits := match sink.room with
    | none => true
    | some room => decide (written.utf8ByteSize ≤ room)
  if fits then .ok { sink with written } else .error (.output "full")

def flush (sink : Sink) : Except Fault Sink :=
  if sink.flushes then .ok sink else .error (.output sink.refusal)

end Sink

structure Printer where
  sink : Sink
deriving DecidableEq, Repr

namespace Printer

def write [Display α] (printer : Printer) (value : α) : Except Halt Printer :=
  fatal (mk <$> (Display.pieces value).foldlM Sink.put printer.sink)

/-- Ends the line and gives back what the printer wrote to. -/
def finish (printer : Printer) : Except Halt Sink :=
  fatal do (← printer.sink.put "\n").flush

/-- Ends the line. -/
def endLine (printer : Printer) : Except Halt Unit := do
  let _ ← printer.finish

end Printer
end Lowering.Container
