import LogicalWorks.Session.Scope
import Mathlib.Data.Rat.Init
import Mathlib.Algebra.Order.Ring.Unbundled.Rat
import Mathlib.Data.List.Sort

/-! The lexicon: normalized forms, sound-alike keys, tiers of matches over a list of options, and
the verdict they come to. -/
namespace LogicalWorks.Session

structure Unicode where
  isAlphanumeric : Char → Bool
  lowercase : Char → Text

/-- How close two token lists, and two texts, are measured to be. -/
structure Similarity where
  overlap : List Text → List Text → Rat
  distance : Text → Text → Rat

def foldDiacritic (character : Char) : Char :=
  let within (first last : Char) : Bool := first ≤ character && character ≤ last
  let among (others : String) : Bool := others.toList.contains character
  if within 'à' 'å' || among "āăą" then 'a'
  else if within 'À' 'Å' || among "ĀĂĄ" then 'A'
  else if within 'è' 'ë' || among "ēĕėęě" then 'e'
  else if within 'È' 'Ë' || among "ĒĔĖĘĚ" then 'E'
  else if within 'ì' 'ï' || among "ĩīĭįı" then 'i'
  else if within 'Ì' 'Ï' || among "ĨĪĬĮ" then 'I'
  else if within 'ò' 'ö' || among "øōŏő" then 'o'
  else if within 'Ò' 'Ö' || among "ØŌŎŐ" then 'O'
  else if within 'ù' 'ü' || among "ūŭůűų" then 'u'
  else if within 'Ù' 'Ü' || among "ŪŬŮŰŲ" then 'U'
  else if among "çćĉċč" then 'c'
  else if among "ÇĆĈĊČ" then 'C'
  else if among "ñńņň" then 'n'
  else if among "ÑŃŅŇ" then 'N'
  else if among "ýÿŷ" then 'y'
  else if among "ÝŸŶ" then 'Y'
  else if among "ßśŝşš" then 's'
  else if among "ŚŜŞŠ" then 'S'
  else if among "źżž" then 'z'
  else if among "ŹŻŽ" then 'Z'
  else if among "ĝğġģ" then 'g'
  else if among "ĜĞĠĢ" then 'G'
  else if among "ł" then 'l'
  else if among "Ł" then 'L'
  else if among "ř" then 'r'
  else if among "Ř" then 'R'
  else if among "ţťŧ" then 't'
  else if among "ŢŤŦ" then 'T'
  else if among "ďđ" then 'd'
  else if among "ĎĐ" then 'D'
  else if among "æ" then 'a'
  else if among "Æ" then 'A'
  else if among "œ" then 'o'
  else if among "Œ" then 'O'
  else character

def normalizeFrom (unicode : Unicode) (folded : Text) (pending : Bool) : Text → Text
  | [] => folded
  | character :: rest =>
    if unicode.isAlphanumeric character then
      normalizeFrom unicode ((if pending then folded ++ [' '] else folded) ++
        unicode.lowercase (foldDiacritic character)) false rest
    else normalizeFrom unicode folded (pending || !folded.isEmpty) rest

def normalize (unicode : Unicode) (text : Text) : Text := normalizeFrom unicode [] false text

def soundexDigit (letter : Char) : Char :=
  if "BFPV".toList.contains letter then '1'
  else if "CGJKQSXZ".toList.contains letter then '2'
  else if "DT".toList.contains letter then '3'
  else if letter = 'L' then '4'
  else if "MN".toList.contains letter then '5'
  else if letter = 'R' then '6'
  else '0'

def soundexFrom (key : Text) (previous : Char) : Text → Text
  | [] => key
  | character :: rest =>
    if !character.isAlpha then soundexFrom key previous rest
    else
      let code := soundexDigit character.toUpper
      -- The first letter is kept verbatim, not coded.
      if key.isEmpty then soundexFrom [character.toUpper] code rest
      else if code = '0' || code = previous then soundexFrom key code rest
      else if 4 ≤ (key ++ [code]).length then key ++ [code]
      else soundexFrom (key ++ [code]) code rest

def phoneticKey (unicode : Unicode) (text : Text) : Text :=
  let key := soundexFrom [] '0' (normalize unicode text)
  if key.isEmpty then key else key ++ List.replicate (4 - key.length) '0'

def tokens (unicode : Unicode) (text : Text) : List Text :=
  ((normalize unicode text).splitOn ' ').filter fun token => !token.isEmpty

inductive MatchTier where
  | exact
  | phonetic
  | fuzzy
  | semantic
  deriving DecidableEq, Repr

def tierRank : MatchTier → Nat
  | .exact => 0
  | .phonetic => 1
  | .fuzzy => 2
  | .semantic => 3

abbrev Scored := Nat × MatchTier × Rat

def winningTier (scored : List Scored) : List Scored :=
  match (scored.map fun candidate => tierRank candidate.2.1).min? with
  | none => scored
  | some best => scored.filter fun candidate => tierRank candidate.2.1 = best

structure Question where
  id : Text
  options : List Text
  domain : AnswerDomain
  deriving DecidableEq, Repr

structure Alias where
  question : Text
  utterance : Text
  option : Text
  deriving DecidableEq, Repr

inductive DegradedReason where
  | embedderUnavailable
  | unmeasurableEmbedding
  deriving DecidableEq, Repr

inductive Resolution where
  | resolved (index : Nat) (tier : MatchTier) (score lead : Rat)
  | ambiguous (tied : List Nat) (tier : MatchTier) (score : Rat)
  | absent (bestScore : Rat)
  | staleAlias (question option : Text)
  | degraded (reason : DegradedReason)
  deriving DecidableEq, Repr

structure Provenance where
  policy : Text
  revision : Text
  model : Option Text
  deriving DecidableEq, Repr

structure Verdict where
  resolution : Resolution
  provenance : Provenance
  deriving DecidableEq, Repr

def tokenWeight : Rat := 1 / 2

def distanceWeight : Rat := 1 / 2

def matchThreshold : Rat := 55 / 100

def matchMargin : Rat := 8 / 100

def ByScoreDescending (left right : Scored) : Prop := right.2.2 ≤ left.2.2

instance : DecidableRel ByScoreDescending := fun left right =>
  inferInstanceAs (Decidable (right.2.2 ≤ left.2.2))

def scoreOne (unicode : Unicode) (measures : Similarity) (utterance : Text) (named : Option Text)
    (option : Text) : MatchTier × Rat :=
  if named = some option then (.exact, 1)
  else if normalize unicode utterance = normalize unicode option then (.exact, 1)
  else if !(phoneticKey unicode utterance).isEmpty &&
      phoneticKey unicode utterance = phoneticKey unicode option then (.phonetic, 9 / 10)
  else
    (.fuzzy, tokenWeight * measures.overlap (tokens unicode utterance) (tokens unicode option) +
      distanceWeight *
        measures.distance (normalize unicode utterance) (normalize unicode option))

def aliasOf (unicode : Unicode) (aliases : Table Text (Table Text Alias)) (question utterance : Text) :
    Option Alias :=
  (aliases.get question).bind fun table => table.get (normalize unicode utterance)

def scoreAll (unicode : Unicode) (measures : Similarity) (utterance : Text) (question : Question)
    (aliases : Table Text (Table Text Alias)) : List Scored :=
  let named := (aliasOf unicode aliases question.id utterance).map Alias.option
  (winningTier (question.options.zipIdx.map fun entry =>
    (entry.2, scoreOne unicode measures utterance named entry.1))).insertionSort ByScoreDescending

def decide_ (scored : List Scored) (threshold margin : Rat) : Resolution :=
  match scored with
  | [] => .absent 0
  | (index, tier, score) :: rest =>
    if score < threshold then .absent score
    else
      let lead := match rest with
        | [] => score
        | next :: _ => score - next.2.2
      if margin ≤ lead then .resolved index tier score lead
      else
        .ambiguous ((scored.takeWhile fun candidate => score - candidate.2.2 < margin).map
          Prod.fst |>.insertionSort (· ≤ ·)) tier score

def decideInteger (utterance : Text) (question : Question) (margin : Rat) : Resolution :=
  match decodeInteger utterance with
  | none => .absent 0
  | some spoken =>
    decide_ (question.options.zipIdx.filterMap fun entry =>
      if decodeInteger entry.1 = some spoken then some (entry.2, .exact, 1) else none)
      matchThreshold margin

structure LanguageResolver where
  aliases : Table Text (Table Text Alias)
  policy : Text
  revision : Text

namespace LanguageResolver

def superseded (resolver : LanguageResolver) (unicode : Unicode) (utterance : Text)
    (question : Question) : Option Alias :=
  (aliasOf unicode resolver.aliases question.id utterance).filter fun found =>
    !question.options.contains found.option

def decideFor (resolver : LanguageResolver) (unicode : Unicode) (measures : Similarity)
    (utterance : Text) (question : Question) : Resolution :=
  if question.domain = .integer then decideInteger utterance question matchMargin
  else
    match decide_ (scoreAll unicode measures utterance question resolver.aliases) matchThreshold
      matchMargin with
    | .absent bestScore =>
      match resolver.superseded unicode utterance question with
      | some found => .staleAlias found.question found.option
      | none => .absent bestScore
    | verdict => verdict

def resolve (resolver : LanguageResolver) (unicode : Unicode) (measures : Similarity)
    (utterance : Text) (question : Question) : Verdict :=
  ⟨resolver.decideFor unicode measures utterance question,
    ⟨resolver.policy, resolver.revision, none⟩⟩

end LanguageResolver

end LogicalWorks.Session
