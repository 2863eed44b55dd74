import LogicalWorks.Json.Map
import Mathlib.Algebra.Order.Ring.Nat

/-! The string and number tokens of JSON, read as the library reads one that is handed to it. -/
namespace LogicalWorks.Json

def quote : UInt8 := 0x22
def backslash : UInt8 := 0x5C
def minus : UInt8 := 0x2D
def zero : UInt8 := 0x30

def isDigit (byte : UInt8) : Bool := 0x30 ≤ byte && byte ≤ 0x39

section Strings

def hexValue (byte : UInt8) : Option Nat :=
  if 0x30 ≤ byte ∧ byte ≤ 0x39 then some (byte.toNat - 0x30)
  else if 0x41 ≤ byte ∧ byte ≤ 0x46 then some (byte.toNat - 0x37)
  else if 0x61 ≤ byte ∧ byte ≤ 0x66 then some (byte.toNat - 0x57)
  else none

def codeUnit (a b c d : UInt8) : Option Nat := do
  let first ← hexValue a
  let second ← hexValue b
  let third ← hexValue c
  let fourth ← hexValue d
  some (((first * 16 + second) * 16 + third) * 16 + fourth)

def utf8 (code : Nat) : Bytes :=
  if code < 0x80 then [UInt8.ofNat code]
  else if code < 0x800 then [UInt8.ofNat (0xC0 + code / 64), UInt8.ofNat (0x80 + code % 64)]
  else if code < 0x10000 then
    [UInt8.ofNat (0xE0 + code / 4096), UInt8.ofNat (0x80 + code / 64 % 64),
      UInt8.ofNat (0x80 + code % 64)]
  else
    [UInt8.ofNat (0xF0 + code / 262144), UInt8.ofNat (0x80 + code / 4096 % 64),
      UInt8.ofNat (0x80 + code / 64 % 64), UInt8.ofNat (0x80 + code % 64)]

def unescape (kind : UInt8) : Option UInt8 :=
  if kind = quote ∨ kind = backslash ∨ kind = 0x2F then some kind
  else if kind = 0x62 then some 0x08
  else if kind = 0x66 then some 0x0C
  else if kind = 0x6E then some 0x0A
  else if kind = 0x72 then some 0x0D
  else if kind = 0x74 then some 0x09
  else none

/-- A string behind its opening quote, up to a closing quote that must be its last byte. -/
def decodeBody : Bytes → Option Bytes
  | [] => none
  | byte :: rest =>
    if byte = quote then if rest = [] then some [] else none
    else if byte = backslash then
      match rest with
      | [] => none
      | kind :: rest =>
        if kind = 0x75 then
          match rest with
          | a :: b :: c :: d :: rest =>
            match codeUnit a b c d with
            | none => none
            | some unit =>
              if 0xDC00 ≤ unit ∧ unit ≤ 0xDFFF then none
              else if 0xD800 ≤ unit ∧ unit ≤ 0xDBFF then
                match rest with
                | slash :: kind :: a :: b :: c :: d :: rest =>
                  if slash = backslash ∧ kind = 0x75 then
                    match codeUnit a b c d with
                    | none => none
                    | some low =>
                      if 0xDC00 ≤ low ∧ low ≤ 0xDFFF then
                        (decodeBody rest).map fun tail =>
                          utf8 (0x10000 + (unit - 0xD800) * 1024 + (low - 0xDC00)) ++ tail
                      else none
                  else none
                | _ => none
              else (decodeBody rest).map fun tail => utf8 unit ++ tail
          | _ => none
        else
          match unescape kind with
          | none => none
          | some byte => (decodeBody rest).map fun tail => byte :: tail
    else if byte < 0x20 then none
    else (decodeBody rest).map fun tail => byte :: tail

def decodeString : Bytes → Option Text
  | [] => none
  | byte :: rest => if byte = quote then (decodeBody rest).map Text.mk else none

def isPlain (byte : UInt8) : Bool := byte ≠ quote && byte ≠ backslash && !(byte < 0x20 : Bool)

theorem decodeBody_append {run : Bytes} (body : Bytes) (h : ∀ byte ∈ run, isPlain byte = true) :
    decodeBody (run ++ body) = (decodeBody body).map fun tail => run ++ tail := by
  induction run with
  | nil => exact Option.map_id_apply.symm
  | cons byte rest ih =>
    have hbyte := h byte List.mem_cons_self
    unfold isPlain at hbyte
    simp only [Bool.and_eq_true, decide_eq_true_eq, Bool.not_eq_true', decide_eq_false_iff_not]
      at hbyte
    obtain ⟨⟨hquote, hbackslash⟩, hcontrol⟩ := hbyte
    rw [List.cons_append, decodeBody.eq_def]
    dsimp only
    rw [if_neg hquote, if_neg hbackslash, if_neg hcontrol,
      ih fun byte hmem => h byte (List.mem_cons_of_mem _ hmem), Option.map_map]
    rfl

theorem decodeBody_plain {run : Bytes} (h : ∀ byte ∈ run, isPlain byte = true) :
    decodeBody (run ++ [quote]) = some run := by
  rw [decodeBody_append [quote] h]
  change some (run ++ []) = some run
  rw [List.append_nil]

inductive Body : Bytes → Prop where
  | close : Body [quote]
  | escape {rest : Bytes} (skipped : UInt8) (behind : Body rest) : Body (backslash :: skipped :: rest)
  | byte {byte : UInt8} {rest : Bytes} (hquote : byte ≠ quote) (hbackslash : byte ≠ backslash)
      (behind : Body rest) : Body (byte :: rest)

theorem hexValue_ne {byte : UInt8} {value : Nat} (h : hexValue byte = some value) :
    byte ≠ quote ∧ byte ≠ backslash := by
  constructor
  · rintro rfl
    cases h
  · rintro rfl
    cases h

theorem Body.unit {a b c d : UInt8} {unit : Nat} {rest : Bytes} (h : codeUnit a b c d = some unit)
    (behind : Body rest) : Body (a :: b :: c :: d :: rest) := by
  unfold codeUnit at h
  obtain ⟨first, hfirst, h⟩ := Option.bind_eq_some_iff.mp h
  obtain ⟨second, hsecond, h⟩ := Option.bind_eq_some_iff.mp h
  obtain ⟨third, hthird, h⟩ := Option.bind_eq_some_iff.mp h
  obtain ⟨fourth, hfourth, -⟩ := Option.bind_eq_some_iff.mp h
  exact .byte (hexValue_ne hfirst).1 (hexValue_ne hfirst).2
    (.byte (hexValue_ne hsecond).1 (hexValue_ne hsecond).2
      (.byte (hexValue_ne hthird).1 (hexValue_ne hthird).2
        (.byte (hexValue_ne hfourth).1 (hexValue_ne hfourth).2 behind)))

theorem body_of_decodeBody {body text : Bytes} (h : decodeBody body = some text) : Body body := by
  fun_induction decodeBody body generalizing text with
  | case2 => exact .close
  | case8 a b c d unit hunit _ _ slash kind a' b' c' d' rest hmark low hlow _ _ ih =>
    obtain ⟨tail, htail, -⟩ := Option.map_eq_some_iff.mp h
    obtain ⟨rfl, rfl⟩ := hmark
    exact .escape _ (.unit hunit (.escape _ (.unit hlow (ih htail))))
  | case12 a b c d rest unit hunit _ _ _ ih =>
    obtain ⟨tail, htail, -⟩ := Option.map_eq_some_iff.mp h
    exact .escape _ (.unit hunit (ih htail))
  | case15 kind rest _ byte _ _ ih =>
    obtain ⟨tail, htail, -⟩ := Option.map_eq_some_iff.mp h
    exact .escape _ (ih htail)
  | case17 byte rest hquote hbackslash _ ih =>
    obtain ⟨tail, htail, -⟩ := Option.map_eq_some_iff.mp h
    exact .byte hquote hbackslash (ih htail)
  | _ => cases h

end Strings

section Numbers

inductive Number (F : Type) where
  | posInt (value : Nat)
  | negInt (value : Int)
  | float (value : F)
  deriving DecidableEq, Repr

def digitsValue (digits : Bytes) : Nat :=
  digits.foldl (fun value byte => value * 10 + (byte.toNat - 0x30)) 0

variable {F : Type}

def integerOf (negative : Bool) (value : Nat) : Option (Number F) :=
  if negative then
    if 0 < value ∧ value ≤ 2 ^ 63 then some (.negInt (-(value : Int))) else none
  else if value < 2 ^ 64 then some (.posInt value) else none

def exponentOk : Bytes → Bool
  | [] => true
  | mark :: rest =>
    let digits := if rest.head? = some 0x2B ∨ rest.head? = some minus then rest.tail else rest
    (mark = 0x65 || mark = 0x45) && !digits.isEmpty && digits.all isDigit

def fractionOk : Bytes → Bool
  | [] => true
  | point :: rest =>
    if point = 0x2E then
      !(rest.takeWhile isDigit).isEmpty && exponentOk (rest.dropWhile isDigit)
    else exponentOk (point :: rest)

/-- One whole number token: an optional minus, digits without a leading zero, a fraction, an
exponent.  What is no 64-bit integer is floating. -/
def decodeNumber (floating : Bytes → Option F) (token : Bytes) : Option (Number F) :=
  let negative : Bool := token.head? = some minus
  let unsigned := if negative then token.tail else token
  let digits := unsigned.takeWhile isDigit
  let behind := unsigned.dropWhile isDigit
  if digits = [] ∨ digits.head? = some zero ∧ digits.length ≠ 1 then none
  else if behind = [] then
    match integerOf negative (digitsValue digits) with
    | some integer => some integer
    | none => (floating token).map .float
  else if fractionOk behind then (floating token).map .float
  else none

end Numbers

end LogicalWorks.Json

/-! The direct reader: one pass over the bytes into the tree.  What is left of the text stands for
the cursor, and the number of containers entered for the depth. -/
namespace LogicalWorks.Json

def depthLimit : Nat := 127

inductive Value (F : Type) where
  | null
  | bool (flag : Bool)
  | number (number : Number F)
  | string (text : Text)
  | array (items : List (Value F))
  | object (members : List (Text × Value F))

def isSpace (byte : UInt8) : Bool := byte = 0x20 || byte = 0x09 || byte = 0x0A || byte = 0x0D

def isNumberByte (byte : UInt8) : Bool :=
  isDigit byte || byte = minus || byte = 0x2B || byte = 0x2E || byte = 0x65 || byte = 0x45

namespace Reader

variable {F : Type} (floating : Bytes → Option F)

def skipSpace (text : Bytes) : Bytes := text.dropWhile isSpace

def eat (byte : UInt8) : Bytes → Option Bytes
  | [] => none
  | next :: rest => if next = byte then some rest else none

def literal (word : Bytes) (value : Value F) (text : Bytes) : Option (Value F × Bytes) :=
  if text.take word.length = word then some (value, text.drop word.length) else none

def escapedString (token : Bytes) : Bytes → Option (Text × Bytes)
  | [] => none
  | byte :: rest =>
    if byte = quote then (decodeString (token ++ [byte])).map fun text => (text, rest)
    else if byte = backslash then
      match rest with
      | [] => none
      | skipped :: rest => escapedString (token ++ [byte, skipped]) rest
    else escapedString (token ++ [byte]) rest

def stringFrom (run : Bytes) : Bytes → Option (Text × Bytes)
  | [] => none
  | byte :: rest =>
    if byte = quote then some (⟨run⟩, rest)
    else if byte = backslash then escapedString (quote :: run) (byte :: rest)
    else if byte < 0x20 then none
    else stringFrom (run ++ [byte]) rest

def string (text : Bytes) : Option (Text × Bytes) := stringFrom [] text.tail

def parseInteger (negative : Bool) (digits : Bytes) : Option (Number F) :=
  if negative then
    if digitsValue digits ≤ 2 ^ 63 then some (.negInt (-(digitsValue digits : Int))) else none
  else if digitsValue digits < 2 ^ 64 then some (.posInt (digitsValue digits)) else none

def isPlainInteger (negative : Bool) (digits : Bytes) : Bool :=
  !digits.isEmpty && digits.all isDigit && (digits.length = 1 || digits.head? ≠ some zero) &&
    !(negative && digits = [zero])

def number (text : Bytes) : Option (Number F × Bytes) :=
  let token := text.takeWhile isNumberByte
  let rest := text.dropWhile isNumberByte
  let negative : Bool := token.head? = some minus
  let digits := if negative then token.tail else token
  let integer := if isPlainInteger negative digits then parseInteger negative digits else none
  match integer with
  | some integer => some (integer, rest)
  | none => (decodeNumber floating token).map fun number => (number, rest)

def wordNull : Bytes := [0x6E, 0x75, 0x6C, 0x6C]
def wordTrue : Bytes := [0x74, 0x72, 0x75, 0x65]
def wordFalse : Bytes := [0x66, 0x61, 0x6C, 0x73, 0x65]

mutual

def value : Nat → Nat → Bytes → Option (Value F × Bytes)
  | 0, _, _ => none
  | fuel + 1, depth, text =>
    match text.head? with
    | none => none
    | some byte =>
      if byte = 0x6E then literal wordNull .null text
      else if byte = 0x74 then literal wordTrue (.bool true) text
      else if byte = 0x66 then literal wordFalse (.bool false) text
      else if byte = quote then (string text).map fun (text, rest) => (.string text, rest)
      else if byte = 0x5B then array fuel depth text
      else if byte = 0x7B then object fuel depth text
      else if byte = minus || isDigit byte then
        (number floating text).map fun (number, rest) => (.number number, rest)
      else none

def array : Nat → Nat → Bytes → Option (Value F × Bytes)
  | 0, _, _ => none
  | fuel + 1, depth, text =>
    if depthLimit < depth + 1 then none
    else
      let inside := skipSpace text.tail
      match eat 0x5D inside with
      | some rest => some (.array [], rest)
      | none => (items fuel (depth + 1) inside).map fun (items, rest) => (.array items, rest)

def items : Nat → Nat → Bytes → Option (List (Value F) × Bytes)
  | 0, _, _ => none
  | fuel + 1, inner, text =>
    match value fuel inner text with
    | none => none
    | some (item, behind) =>
      let behind := skipSpace behind
      match eat 0x5D behind with
      | some rest => some ([item], rest)
      | none =>
        match eat 0x2C behind with
        | none => none
        | some next =>
          (items fuel inner (skipSpace next)).map fun (others, rest) => (item :: others, rest)

def object : Nat → Nat → Bytes → Option (Value F × Bytes)
  | 0, _, _ => none
  | fuel + 1, depth, text =>
    if depthLimit < depth + 1 then none
    else
      let inside := skipSpace text.tail
      match eat 0x7D inside with
      | some rest => some (.object (fromMembers []), rest)
      | none =>
        (members fuel (depth + 1) inside).map fun (entries, rest) =>
          (.object (fromMembers entries), rest)

def members : Nat → Nat → Bytes → Option (List (Text × Value F) × Bytes)
  | 0, _, _ => none
  | fuel + 1, inner, text =>
    if text.head? ≠ some quote then none
    else
      match string text with
      | none => none
      | some (key, behind) =>
        match eat 0x3A (skipSpace behind) with
        | none => none
        | some behind =>
          match value fuel inner (skipSpace behind) with
          | none => none
          | some (member, behind) =>
            let behind := skipSpace behind
            match eat 0x7D behind with
            | some rest => some ([(key, member)], rest)
            | none =>
              match eat 0x2C behind with
              | none => none
              | some next =>
                (members fuel inner (skipSpace next)).map fun (others, rest) =>
                  ((key, member) :: others, rest)

end

def document (text : Bytes) : Option (Value F) :=
  match value floating (3 * text.length + 1) 0 (skipSpace text) with
  | none => none
  | some (value, behind) => if skipSpace behind = [] then some value else none

end Reader

def fromStr {F ε : Type} (floating : Bytes → Option F) (library : Bytes → Except ε (Value F))
    (text : Bytes) : Except ε (Value F) :=
  match Reader.document floating text with
  | some value => .ok value
  | none => library text

end LogicalWorks.Json
