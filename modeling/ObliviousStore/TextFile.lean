/-
  Text files — keys and lists of data that are loaded when a client starts.

  A file that cannot be loaded counts as empty, and the log says why.
-/
import ObliviousStore.Op

namespace ObliviousStore

/-- What is found at a path. -/
inductive FileState where
  | missing
  | directory
  | content (bytes : Bytes)

namespace FileState

def text? : FileState → Except FileFault String
  | missing => .error .missing
  | directory => .error .directory
  | content bytes =>
    match String.fromUTF8? bytes.toByteArray with
    | some s => .ok s
    | none => .error .notUtf8

/-- Loads the text of a file, and nothing if there is none. -/
def load {σ : Type} (role : FileRole) (path : String) (file : FileState) : Op σ String :=
  match file.text? with
  | .ok s => pure s
  | .error fault => do
    Op.report (.unreadable role path fault)
    return ""

/-- The stretches of text between line feeds; there is always a last one. -/
def stretches (s : List Char) : List (List Char) :=
  s.foldr
    (fun c parts =>
      if c = '\n' then [] :: parts
      else
        match parts with
        | [] => [[c]]
        | part :: parts => (c :: part) :: parts)
    [[]]

/-- A line without the carriage return before its line feed. -/
def dropReturn (line : List Char) : List Char :=
  if line.getLast? = some '\r' then line.dropLast else line

/-- The lines of a text.  A line feed ends a line, together with a carriage
    return before it; what stands behind the last one is a line of its own
    unless it is empty. -/
def lines (s : List Char) : List (List Char) :=
  let parts := stretches s
  parts.dropLast.map dropReturn ++ (parts.getLast?.toList.filter fun part => !part.isEmpty)

def loadKey {σ : Type} (path : String) (file : FileState) : Op σ String := file.load .key path

def loadData {σ : Type} (path : String) (file : FileState) : Op σ (List String) := do
  let s ← file.load .data path
  return (lines s.toList).map String.ofList

end FileState

end ObliviousStore
