import LogicalWorks.Lib.Bytes
import LogicalWorks.Journal.Records

/-! Where one journal's continuation lives.  A name is a list of characters and a path
is its directory components with a file name, which is all the naming rule reads. -/
namespace LogicalWorks.Journal

abbrev Name := List Char

structure JournalPath where
  directory : List Name
  name : Name
  deriving DecidableEq, Repr

def generationDirectorySuffix : Name := ['.', 'c', 'o', 'n', 't']

def generationDigits : Nat := 6

def maxGenerationName : Nat := 999999

def isGenerationName (name : Name) : Bool :=
  name.length = generationDigits && name.all Char.isDigit

def digitValue (digit : Char) : Nat := digit.toNat - 48

def nameNumber (name : Name) : Option Nat :=
  if isGenerationName name then
    some (name.foldl (fun number digit => number * 10 + digitValue digit) 0)
  else none

def generationName (number : Nat) : Name :=
  [number / 100000 % 10, number / 10000 % 10, number / 1000 % 10, number / 100 % 10,
    number / 10 % 10, number % 10].map fun digit => Char.ofNat (48 + digit)

/-- A base journal continues into `<name>.cont/000001`, a generation into the next
six-digit name beside it. -/
def successorPath (path : JournalPath) : JournalPath :=
  match nameNumber path.name with
  | some number =>
    { path with name := generationName (min (number + 1) maxGenerationName) }
  | none =>
    { directory := path.directory ++ [path.name ++ generationDirectorySuffix]
      name := generationName 1 }

def isGenerationPath (path : JournalPath) : Bool :=
  isGenerationName path.name &&
    match path.directory.getLast? with
    | some parent => generationDirectorySuffix.isSuffixOf parent
    | none => false

def generationOf (path : JournalPath) : Nat :=
  match nameNumber path.name with
  | some number => if isGenerationPath path then number + 1 else 1
  | none => 1

def ambiguousBase (path : JournalPath) : Option Nat :=
  match nameNumber path.name with
  | some number => if isGenerationPath path then none else some number
  | none => none

private theorem isDigit_ofNat :
    ∀ digit < 10, (Char.ofNat (48 + digit)).isDigit = true := by
  decide

theorem isGenerationName_generationName (number : Nat) :
    isGenerationName (generationName number) = true := by
  have hdigit : ∀ n : Nat, (Char.ofNat (48 + n % 10)).isDigit = true :=
    fun n => isDigit_ofNat _ (Nat.mod_lt n (by decide))
  simp [isGenerationName, generationName, generationDigits, hdigit]

/-- A continuation never goes to a name that could be read two ways. -/
theorem ambiguousBase_successorPath {path : JournalPath} (h : ambiguousBase path = none) :
    ambiguousBase (successorPath path) = none := by
  unfold ambiguousBase at h ⊢
  unfold successorPath
  cases hnumber : nameNumber path.name with
  | none =>
    simp [nameNumber, isGenerationName_generationName, isGenerationPath]
  | some number =>
    simp only [hnumber] at h
    split at h
    · rename_i hpath
      have hdirectory := (Bool.and_eq_true_iff.mp hpath).2
      simp [nameNumber, isGenerationName_generationName, isGenerationPath, hdirectory]
    · cases h

end LogicalWorks.Journal

/-! What a journal can refuse.  A device error is the text the journal gives it. -/
namespace LogicalWorks.Journal

inductive JournalLimitKind where
  | events
  | bytes
  | continuationWatermark
  | generation
  | checkpointActions
  | checkpointUnresolved
  deriving DecidableEq, Repr

inductive ChainBreak where
  | disagreement (place : UInt64) (recorded recomputed : JournalPosition)
  | unencodable (place : UInt64)
  deriving DecidableEq, Repr

/-- Why the journal refused its own committed bytes. -/
inductive CorruptionKind where
  | undecodable
  | framed
  | chain (cause : ChainBreak)
  | sealed
  deriving DecidableEq, Repr

/-- One refused frame, named by its index in file order. -/
structure Corruption where
  place : Nat
  kind : CorruptionKind
  deriving DecidableEq, Repr

inductive JournalError where
  | tailMismatch (expected actual : JournalPosition)
  | outOfOrder (key : EffectKey) (expected : Option EventKind) (attempted : EventKind)
  | exhausted
  | superseded (path : JournalPath)
  | attemptAlreadyWalked (key : EffectKey) (latest : AttemptId)
  | continuationPaused (boundary : SealPause)
  | capacityExceeded (resource : JournalLimitKind) (limit requested : Nat)
  | locked (path : JournalPath)
  | storage (cause : String)
  | outcomeUnknown (cause : String)
  | encoding
  | corrupt (corruption : Corruption)
  deriving DecidableEq, Repr

end LogicalWorks.Journal
