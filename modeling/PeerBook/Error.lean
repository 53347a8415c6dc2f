/-! # Errors

Failures of the engine, of the record codec and of the store, with their
messages. An operation and the release of what it used may both fail; then
both failures are kept in the order in which they happened.
-/

namespace PeerBook

inductive EngineError where
  | io (text : String)
  | corruption (text : String)
  | logWrite (text : String)
  | serialization (text : String)
  | batchCommitted
  | settings (text : String)
  deriving DecidableEq, Repr

def EngineError.message : EngineError → String
  | .io text => "IO error: " ++ text
  | .corruption text => "WAL corruption detected: " ++ text
  | .logWrite text => "WAL write failed: " ++ text
  | .serialization text => "Serialization error: " ++ text
  | .batchCommitted => "Batch already committed"
  | .settings text => "Configuration error: " ++ text

structure CodecError where
  message : String
  deriving DecidableEq, Repr

inductive StoreError where
  | notFound
  | encoding (key : String) (source : CodecError)
  | decoding (key : String) (source : CodecError)
  | commit (key : String) (source : EngineError)
  | read (op key : String) (source : EngineError)
  | release (resource : String) (source : EngineError)
  | cancelled (op : String)
  | deadlineExceeded (op : String)
  | multiple (parts : List StoreError)

namespace StoreError

mutual

def message : StoreError → String
  | .notFound => "peer not found"
  | .encoding key source => "marshal " ++ key ++ ": " ++ source.message
  | .decoding key source => "unmarshal " ++ key ++ ": " ++ source.message
  | .commit key source => "commit " ++ key ++ ": " ++ source.message
  | .read op key source => op ++ " " ++ key ++ ": " ++ source.message
  | .release resource source => "close " ++ resource ++ ": " ++ source.message
  | .cancelled op => op ++ ": operation cancelled"
  | .deadlineExceeded op => op ++ ": deadline exceeded"
  | .multiple parts => String.intercalate "; " (messages parts)

def messages : List StoreError → List String
  | [] => []
  | e :: es => message e :: messages es

end

/-- The failures that an error is made of, in the order in which they happened. -/
def parts : StoreError → List StoreError
  | .multiple parts => parts
  | e => [e]

/-- Both errors in one list. -/
def combine (e f : StoreError) : StoreError :=
  .multiple (e.parts ++ f.parts)

/-- A miss alone; with a failed release beside it, it is more than a miss. -/
def isNotFound : StoreError → Bool
  | .notFound => true
  | _ => false

/-- The outcome of an operation joined with the outcome of releasing what it used. -/
def append {α : Type} : Except StoreError α → Except StoreError Unit → Except StoreError α
  | .ok a, .ok () => .ok a
  | .ok _, .error f => .error f
  | .error e, .ok () => .error e
  | .error e, .error f => .error (e.combine f)

end StoreError

end PeerBook
