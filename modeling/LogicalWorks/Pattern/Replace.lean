import LogicalWorks.Lib.Checks
import LogicalWorks.Lib.Slices
import Mathlib.Algebra.Order.Ring.Nat

/-! Replacing the matches of a pattern within an output ceiling. -/
namespace LogicalWorks.Pattern
open Slices

inductive PatternRunError (ε : Type) where
  | inputTooLarge (limit actual : Nat)
  | outputTooLarge (limit attempted : Nat)
  | allocationFailed (cause : ε)
  | missingWholeMatch
  deriving DecidableEq, Repr

/-- What ends an operation early: a refusal, or a slice off a character boundary or an index past
the end, or a walk that comes to no end. -/
inductive Stop (ε : Type) where
  | refused (error : PatternRunError ε)
  | panicked
  | unfinished
  deriving DecidableEq, Repr

structure PatternConfig where
  inputLimit : Nat
  outputLimit : Nat

/-- A part of a text, between two places where characters begin. -/
structure Span (text : List Char) where
  before : List Char
  matched : List Char
  behind : List Char
  spells : text = before ++ (matched ++ behind)

def Span.start {text : List Char} (span : Span text) : Nat := size span.before

def Span.stop {text : List Char} (span : Span text) : Nat := size span.before + size span.matched

structure Captures (text : List Char) where
  get : Nat → Option (Span text)
  name : List Char → Option (Span text)
  whole : Span text
  get_zero : get 0 = some whole

/-- The matches an engine finds in a text, in order, none begun before the one ahead has ended. -/
structure Engine where
  capturesIter : (text : List Char) → List (Captures text)
  ordered : ∀ text, (capturesIter text).Pairwise fun found next => found.whole.stop ≤ next.whole.start

structure BoundedRegex where
  engine : Engine
  config : PatternConfig

structure BoundedString where
  value : List Char
  capacity : Nat
  limit : Nat
  fits : size value ≤ limit

def BoundedString.new (limit : Nat) : BoundedString := ⟨[], 0, limit, Nat.zero_le _⟩

/-- The allocator's answer to a reservation of so many more bytes: the cause of its refusal. -/
abbrev Allocator (ε : Type) := Nat → Option ε

variable {ε : Type}

def BoundedString.pushStr (tryReserveExact : Allocator ε) (output : BoundedString)
    (value : List Char) : Except (Stop ε) BoundedString :=
  if hfits : size (output.value ++ value) ≤ output.limit then
    let attempted := size (output.value ++ value)
    if output.capacity < attempted then
      let target := max attempted (min (size output.value * 2) output.limit)
      match tryReserveExact (target - size output.value) with
      | some cause => .error (.refused (.allocationFailed cause))
      | none => .ok ⟨output.value ++ value, target, output.limit, hfits⟩
    else .ok ⟨output.value ++ value, output.capacity, output.limit, hfits⟩
  else .error (.refused (.outputTooLarge output.limit (size (output.value ++ value))))

def isDigit (code : Nat) : Bool := 48 ≤ code && code ≤ 57

def isWord (code : Nat) : Bool :=
  isDigit code || (65 ≤ code && code ≤ 90) || (97 ≤ code && code ≤ 122) || code == 95

def parseUsize (text : List Char) : Option Nat :=
  let digits := if text.head? = some '+' then text.tail else text
  if digits ≠ [] ∧ digits.all fun digit => isDigit digit.toNat then
    let number := digits.foldl (fun number digit => number * 10 + (digit.toNat - 48)) 0
    if number < 2 ^ 64 then some number else none
  else none

def Captures.find {text : List Char} (captures : Captures text) (name : List Char) :
    Option (Span text) :=
  match parseUsize name with
  | some index => captures.get index
  | none => captures.name name

inductive ExpansionStep where
  | skipped
  | consumed (next : Nat)
  | done
  deriving DecidableEq, Repr

def sliceOr (text : List Char) (start stop : Nat) : Except (Stop ε) (List Char) :=
  match slice text start stop with
  | some inside => .ok inside
  | none => .error .panicked

def pushGroup (tryReserveExact : Allocator ε) {text : List Char} (found : Option (Span text))
    (output : BoundedString) : Except (Stop ε) BoundedString :=
  match found with
  | some matched => output.pushStr tryReserveExact matched.matched
  | none => .ok output

/-- Where the reference behind a dollar sign ends, where its name begins, and whether it stands in
braces. -/
def referenceEnd (bytes : List UInt8) (referenceStart : Nat) : Option (Nat × Nat × Bool) :=
  if bytes[referenceStart]? = some 123 then
    let nameStart := referenceStart + 1
    match (bytes.drop nameStart).findIdx? fun byte => byte.toNat == 125 with
    | some offset => some (nameStart + offset, nameStart, true)
    | none => none
  else
    let stop := referenceStart +
      ((bytes.drop referenceStart).takeWhile fun byte => isWord byte.toNat).length
    if stop = referenceStart then none else some (stop, referenceStart, false)

def nextExpansion (tryReserveExact : Allocator ε) {text : List Char} (captures : Captures text)
    (replacement : List Char) (output : BoundedString) (cursor literalStart : Nat) :
    Except (Stop ε) (ExpansionStep × Nat × BoundedString) :=
  let bytes := encode replacement
  match bytes[cursor]? with
  | none => .error .panicked
  | some byte =>
    if byte ≠ 36 then .ok (.skipped, literalStart, output)
    else if bytes[cursor + 1]? = some 36 then do
      let output ← output.pushStr tryReserveExact (← sliceOr replacement literalStart cursor)
      let output ← output.pushStr tryReserveExact ['$']
      pure (.consumed (cursor + 2), cursor + 2, output)
    else
      match referenceEnd bytes (cursor + 1) with
      | none => .ok (.skipped, literalStart, output)
      | some (stop, nameStart, braced) => do
        let output ← output.pushStr tryReserveExact (← sliceOr replacement literalStart cursor)
        let name ← sliceOr replacement nameStart stop
        let output ← pushGroup tryReserveExact (captures.find name) output
        let next := if braced then stop + 1 else stop
        pure (if bytes.length ≤ next then .done else .consumed next, next, output)

def expandFrom (tryReserveExact : Allocator ε) {text : List Char} (captures : Captures text)
    (replacement : List Char) : Nat → Nat → Nat → BoundedString → Except (Stop ε) BoundedString
  | 0, _, _, _ => .error .unfinished
  | fuel + 1, cursor, literalStart, output =>
    if cursor < size replacement then do
      match ← nextExpansion tryReserveExact captures replacement output cursor literalStart with
      | (.skipped, literalStart, output) =>
        expandFrom tryReserveExact captures replacement fuel (cursor + 1) literalStart output
      | (.done, literalStart, output) =>
        output.pushStr tryReserveExact (← sliceOr replacement literalStart (size replacement))
      | (.consumed next, literalStart, output) =>
        expandFrom tryReserveExact captures replacement fuel next literalStart output
    else do
      output.pushStr tryReserveExact (← sliceOr replacement literalStart (size replacement))

def expandReplacement (tryReserveExact : Allocator ε) {text : List Char} (captures : Captures text)
    (replacement : List Char) (output : BoundedString) : Except (Stop ε) BoundedString :=
  expandFrom tryReserveExact captures replacement (size replacement + 1) 0 0 output

namespace BoundedRegex

def checkInput (regex : BoundedRegex) (text : List Char) : Except (Stop ε) Unit :=
  if regex.config.inputLimit < size text then
    .error (.refused (.inputTooLarge regex.config.inputLimit (size text)))
  else .ok ()

def replaceFrom (tryReserveExact : Allocator ε) (text replacement : List Char) (count : Nat) :
    List (Captures text) → Nat → Nat → BoundedString → Except (Stop ε) BoundedString
  | [], cursor, _, output => do
    output.pushStr tryReserveExact (← sliceOr text cursor (size text))
  | groups :: rest, cursor, remaining, output =>
    match groups.get 0 with
    | none => .error (.refused .missingWholeMatch)
    | some whole => do
      let output ← output.pushStr tryReserveExact (← sliceOr text cursor whole.start)
      let output ← expandReplacement tryReserveExact groups replacement output
      if count ≠ 0 ∧ remaining - 1 = 0 then
        output.pushStr tryReserveExact (← sliceOr text whole.stop (size text))
      else
        replaceFrom tryReserveExact text replacement count rest whole.stop
          (if count ≠ 0 then remaining - 1 else remaining) output

def replaceMatches (regex : BoundedRegex) (tryReserveExact : Allocator ε)
    (text replacement : List Char) (count : Nat) : Except (Stop ε) (List Char) := do
  regex.checkInput text
  match regex.engine.capturesIter text with
  | [] =>
    if regex.config.outputLimit < size text then
      .error (.refused (.outputTooLarge regex.config.outputLimit (size text)))
    else .ok text
  | found => do
    let output ← replaceFrom tryReserveExact text replacement count found 0 count
      (.new regex.config.outputLimit)
    pure output.value

def replace (regex : BoundedRegex) (tryReserveExact : Allocator ε) (text replacement : List Char) :
    Except (Stop ε) (List Char) :=
  regex.replaceMatches tryReserveExact text replacement 1

def replaceAll (regex : BoundedRegex) (tryReserveExact : Allocator ε)
    (text replacement : List Char) : Except (Stop ε) (List Char) :=
  regex.replaceMatches tryReserveExact text replacement 0

end BoundedRegex

def reference (rest : List Char) : Option (List Char × List Char) :=
  if rest.head? = some '{' then
    let inside := rest.tail
    if '}' ∈ inside then
      some (inside.takeWhile (· ≠ '}'), (inside.dropWhile (· ≠ '}')).tail)
    else none
  else
    let name := rest.takeWhile fun first => isWord first.toNat
    if name = [] then none else some (name, rest.dropWhile fun first => isWord first.toNat)

theorem length_reference {rest name behind : List Char}
    (h : reference rest = some (name, behind)) : behind.length ≤ rest.length := by
  unfold reference at h
  split at h
  · dsimp only at h
    split at h
    · cases h
      calc ((rest.tail.dropWhile (· ≠ '}')).tail).length
        _ ≤ (rest.tail.dropWhile (· ≠ '}')).length := (List.tail_sublist _).length_le
        _ ≤ rest.tail.length := (List.dropWhile_sublist _).length_le
        _ ≤ rest.length := (List.tail_sublist _).length_le
    · cases h
  · dsimp only at h
    split at h
    · cases h
    · cases h
      exact (List.dropWhile_sublist _).length_le

def expand (group : List Char → List Char) : List Char → List Char
  | [] => []
  | first :: rest =>
    if first = '$' then
      if rest.head? = some '$' then '$' :: expand group rest.tail
      else
        match _h : reference rest with
        | some (name, behind) => group name ++ expand group behind
        | none => '$' :: expand group rest
    else first :: expand group rest
termination_by template => template.length
decreasing_by
  · exact Nat.lt_succ_of_le (List.tail_sublist _).length_le
  · exact Nat.lt_succ_of_le (length_reference _h)
  · exact Nat.lt_succ_self _
  · exact Nat.lt_succ_self _

end LogicalWorks.Pattern
