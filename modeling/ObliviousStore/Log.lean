/-
  The log — what the library reports while it works, one event per line.

  An event holds the facts it reports; its severity and its wording are
  `Event.severity` and `Event.text`.  The physical accesses among the events
  (`Event.access?`) are what an observer of the backend learns.
-/
import ObliviousStore.Error
import ObliviousStore.Block.Basic
import ObliviousStore.Storage.Address

namespace ObliviousStore

inductive Severity where
  | error
  | info
  | debug
deriving DecidableEq, Repr

/-- The word for a severity that opens a line of the log. -/
def Severity.text : Severity → String
  | error => "ERROR"
  | info => "INFO"
  | debug => "DEBUG"

/-- A text file the library loads. -/
inductive FileRole where
  | key
  | data
deriving DecidableEq, Repr

def FileRole.text : FileRole → String
  | key => "key"
  | data => "data"

/-- Why a text file could not be loaded. -/
inductive FileFault where
  | missing
  | directory
  | notUtf8
deriving DecidableEq, Repr

/-- The report of a file that could not be loaded. -/
def FileFault.message : FileFault → String
  | missing => "No such file or directory (os error 2)"
  | directory => "Is a directory (os error 21)"
  | notUtf8 => "stream did not contain valid UTF-8"

/-- Something that the library reports. -/
inductive Event where
  | treeSetUp (id : UInt32) (height bucketSize : Nat)
  | sqrtSetUp (id : UInt32) (capacity squaredM : Nat)
  | physicalRead (location : Location)
  | physicalWrite (location : Location)
  /-- The shelter of so many slots was emptied. -/
  | shelterCleared (slots : Nat)
  /-- A tree with so many occupied nodes is being listed. -/
  | treeListed (occupied : Nat)
  | nodeListed (tag : TreeTag)
  /-- A block of the bucket being listed. -/
  | entryListed (id : BlockId) (kind : BlockType)
  | sampling (count offset real : Nat)
  | padding (present target : Nat)
  | stashListed
  /-- A block of the stash being listed, with the first byte of its payload. -/
  | stashBlock (id : BlockId) (kind : BlockType) (first : Option UInt8)
  | unreadable (role : FileRole) (path : String) (fault : FileFault)
  | aborted (error : StoreError) (reason : String)
deriving DecidableEq, Repr

namespace Event

def severity : Event → Severity
  | unreadable .. | aborted .. => .error
  | treeSetUp .. | sqrtSetUp .. => .info
  | _ => .debug

/-- The first byte of a payload, if there is one. -/
def firstByteText : Option UInt8 → String
  | some b => s!"Some({b})"
  | none => "None"

def text : Event → String
  | treeSetUp id height bucketSize =>
    s!"TreeStorage::new(id = {id}, height = {height}, bucket_size = {bucketSize})"
  | sqrtSetUp id capacity squaredM =>
    s!"SqrtStorage::new(id = {id}, capacity = {capacity}, squared_m = {squaredM})"
  | physicalRead location => "Physical read -- " ++ location.text
  | physicalWrite location => "Physical write -- " ++ location.text
  | shelterCleared slots => s!"Clearing shelter of {slots} slots"
  | treeListed occupied => s!"The size of the ORAM tree is {occupied}"
  | nodeListed tag => "Tag " ++ toString tag.level ++ ", " ++ toString tag.node ++ ": "
  | entryListed id kind => s!"id: {id}, type: " ++ kind.text
  | sampling count offset real =>
    s!"Sampling bucket of {count} blocks starting at id {offset} ({real} real)"
  | padding present target => s!"Padding stash from {present} to {target} blocks"
  | stashListed => "Stash:"
  | stashBlock id kind first =>
    s!"Block {id}: type : " ++ kind.text ++ ", data: " ++ firstByteText first
  | unreadable role path fault =>
    "Failed to read " ++ role.text ++ " file " ++ path ++ ": " ++ fault.message
  | aborted error reason => error.message ++ ": " ++ reason

/-- The line of the log that reports the event. -/
def line (e : Event) : String := e.severity.text ++ " " ++ e.text

/-- The place an event shows being touched, if it is a physical access. -/
def access? : Event → Option Location
  | physicalRead location | physicalWrite location => some location
  | _ => none

end Event

end ObliviousStore
