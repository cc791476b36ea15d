/-! Where printed text goes. A buffer collects all the text printed to it; a stream takes a limited
number of characters and refuses the rest. -/

namespace LpPresolve

inductive PrintTarget
  | stdout
  | file
  | buffer (text : String)
  /-- The number of characters it still accepts, if there is a limit. -/
  | stream (room : Option Nat)
  | sink

inductive PrintError
  | streamFull | notBuffered
  deriving DecidableEq

def PrintError.message : PrintError → String
  | streamFull => "stream full"
  | notBuffered => "Print buffering is not configured."

/-- The text that has arrived outside the program. -/
structure Delivery where
  stdout : String := ""
  stream : String := ""
  file : String := ""

namespace PrintTarget

def describe : PrintTarget → String
  | stdout => "PrintTarget::Stdout"
  | file => "PrintTarget::File"
  | buffer _ => "PrintTarget::Buffer"
  | stream _ => "PrintTarget::Stream"
  | sink => "PrintTarget::Sink"

/-- The target after a text has been printed to it, what of the text has arrived outside, and
whether all of it has been accepted. -/
def write (text : String) : PrintTarget → PrintTarget × Delivery × Except PrintError Unit
  | stdout => (stdout, { stdout := text }, .ok ())
  | file => (file, { file := text }, .ok ())
  | buffer before => (buffer (before ++ text), {}, .ok ())
  | stream none => (stream none, { stream := text }, .ok ())
  | stream (some room) =>
    if text.length ≤ room then (stream (some (room - text.length)), { stream := text }, .ok ())
    else
      (stream (some 0), { stream := String.ofList (text.toList.take room) }, .error .streamFull)
  | sink => (sink, {}, .ok ())

def contents : PrintTarget → Except PrintError String
  | buffer text => .ok text
  | _ => .error .notBuffered

end PrintTarget

end LpPresolve
