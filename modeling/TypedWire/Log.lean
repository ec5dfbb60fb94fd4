namespace TypedWire

inductive LogLevel where
  | debug
  | warn
deriving DecidableEq, Repr

structure LogEntry where
  level : LogLevel
  text : String
deriving DecidableEq, Repr

def LogEntry.line (entry : LogEntry) : String :=
  match entry.level with
  | .debug => "DEBUG " ++ entry.text
  | .warn => "WARN " ++ entry.text

end TypedWire
