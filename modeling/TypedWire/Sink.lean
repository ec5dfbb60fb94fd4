import TypedWire.Emission
import TypedWire.Writer

/-! A sink performs writes in order, up to the first that fails, and counts the bytes of those that
succeeded. The count is the offset that a failed write reports. -/

namespace TypedWire

structure Sink where
  writer : Writer
  /-- The bytes of all successful writes. -/
  offset : Nat
deriving DecidableEq, Repr

namespace Sink

def ofWriter (writer : Writer) : Sink := ⟨writer, 0⟩

/-- Performs one write. The offset moves only if it succeeds. -/
def write (data : List Byte) (sink : Sink) : Except EncodeError Unit × Sink :=
  match sink.writer.push data with
  | (none, writer) => (.ok (), ⟨writer, sink.offset + data.length⟩)
  | (some failure, writer) => (.error (.io sink.offset failure), ⟨writer, sink.offset⟩)

def wrap (path : List String) (error : EncodeError) : EncodeError := path.foldr .labeled error

/-- Performs writes up to the first that fails. -/
def playAll : List Write → Sink → Except EncodeError Unit × Sink
  | [], sink => (.ok (), sink)
  | w :: rest, sink =>
    match sink.write w.data with
    | (.ok (), after) => playAll rest after
    | (.error error, after) => (.error (wrap w.path error), after)

def play (emission : Emission) (sink : Sink) : Except EncodeError Unit × Sink :=
  match playAll emission.items sink with
  | (.ok (), after) => (match emission.failure with
    | none => .ok ()
    | some error => .error error, after)
  | (.error error, after) => (.error error, after)

end Sink
end TypedWire
