import LogicalWorks.Session.Language

/-! When a normalized text is its own normal form.  The table of marked letters is consulted before
a character is put in lower case, and lower case may give a character that the table would still
change, or one that separates words. -/
namespace LogicalWorks.Session

/-- What is said of the letters of a text is decided letter by letter, not over all characters. -/
instance (priority := high) decidableLetters {P : Char → Prop} [DecidablePred P]
    (letters : List Char) : Decidable (∀ letter ∈ letters, P letter) :=
  @List.decidableBAll Char P _ letters

def baseLetters : List Char := "aAeEiIoOuUcCnNyYsSzZgGlLrRtTdD".toList

def Folded (character found : Char) : Prop := found = character ∨ found ∈ baseLetters

theorem folded_ite {character letter rest : Char} (row : Prop) [Decidable row]
    (hletter : letter ∈ baseLetters) (hrest : Folded character rest) :
    Folded character (if row then letter else rest) := by
  split
  · exact .inr hletter
  · exact hrest

theorem foldDiacritic_cases (character : Char) : Folded character (foldDiacritic character) := by
  unfold foldDiacritic
  dsimp only
  repeat' refine folded_ite _ (by decide) ?_
  exact .inl rfl

theorem foldDiacritic_base : ∀ letter ∈ baseLetters, foldDiacritic letter = letter := by decide

/-- What Unicode documents of its functions, as far as a normal form rests on it. -/
structure Unicode.Lawful (unicode : Unicode) : Prop where
  /-- Lower case gives one or more characters. -/
  some : ∀ character, unicode.lowercase character ≠ []
  /-- What is in lower case stays. -/
  fixed : ∀ character, ∀ lower ∈ unicode.lowercase character, unicode.lowercase lower = [lower]
  /-- A space is no letter, and lower case makes none of what is one. -/
  space : unicode.isAlphanumeric ' ' = false
  spaceless : ∀ character, unicode.isAlphanumeric character = true →
    ' ' ∉ unicode.lowercase character
  /-- A character that is neither a letter nor a digit does not become one. -/
  apart : ∀ character, unicode.isAlphanumeric character = false →
    ∀ lower ∈ unicode.lowercase character, unicode.isAlphanumeric lower = false
  /-- Lower case of a base letter is the small one. -/
  base : ∀ letter ∈ baseLetters,
    unicode.isAlphanumeric letter = true ∧ unicode.lowercase letter = [letter.toLower]
  /-- A marked letter's small form is the marked small letter. -/
  marked : ∀ character, foldDiacritic character ≠ character →
    unicode.isAlphanumeric character = true ∧ ∃ lower, unicode.lowercase character = [lower] ∧
      unicode.isAlphanumeric lower = true ∧
      foldDiacritic lower = (foldDiacritic character).toLower

section Normal

variable (unicode : Unicode)

def small (character : Char) : Text := unicode.lowercase (foldDiacritic character)

/-- No letter of the text lower-cases to a character that separates words or has a mark. -/
def Settled (text : Text) : Prop :=
  ∀ character ∈ text, unicode.isAlphanumeric character = true →
    ∀ lower ∈ small unicode character,
      unicode.isAlphanumeric lower = true ∧ foldDiacritic lower = lower

instance (text : Text) : Decidable (Settled unicode text) :=
  inferInstanceAs (Decidable (∀ character ∈ text, unicode.isAlphanumeric character = true →
    ∀ lower ∈ small unicode character,
      unicode.isAlphanumeric lower = true ∧ foldDiacritic lower = lower))

def letters (text : Text) : Text := (text.filter unicode.isAlphanumeric).flatMap (small unicode)

def lowercased (text : Text) : Text := text.flatMap unicode.lowercase

end Normal

theorem toLower_base : ∀ letter ∈ baseLetters,
    letter.toLower ∈ baseLetters ∧ letter.toLower.toLower = letter.toLower := by decide

theorem letters_cons {unicode : Unicode} (character : Char) (rest : Text) :
    letters unicode (character :: rest) = letters unicode [character] ++ letters unicode rest := by
  unfold letters
  rw [← List.flatMap_append, ← List.filter_append, List.singleton_append]

theorem letters_append {unicode : Unicode} (left right : Text) :
    letters unicode (left ++ right) = letters unicode left ++ letters unicode right := by
  unfold letters
  rw [List.filter_append, List.flatMap_append]

theorem mem_letters {unicode : Unicode} {text : Text} {lower : Char} : lower ∈ letters unicode text ↔
    ∃ character ∈ text, unicode.isAlphanumeric character = true ∧
      lower ∈ small unicode character := by
  unfold letters
  simp only [List.mem_flatMap, List.mem_filter, and_assoc]

theorem settled_iff {unicode : Unicode} {text : Text} : Settled unicode text ↔ ∀ lower ∈ letters unicode text,
    unicode.isAlphanumeric lower = true ∧ foldDiacritic lower = lower := by
  constructor
  · intro h lower hmem
    obtain ⟨character, hcharacter, halnum, hlower⟩ := mem_letters.mp hmem
    exact h character hcharacter halnum lower hlower
  · intro h character hcharacter halnum lower hlower
    exact h lower (mem_letters.mpr ⟨character, hcharacter, halnum, hlower⟩)

section Letters

variable {unicode : Unicode} (lawful : unicode.Lawful) {text : Text} {character lower : Char}

include lawful

theorem small_fixed (hfixed : unicode.lowercase lower = [lower]) :
    ∃ folded, small unicode lower = [folded] ∧ (folded = lower ↔ foldDiacritic lower = lower) := by
  by_cases hfold : foldDiacritic lower = lower
  · refine ⟨lower, ?_, by simp [hfold]⟩
    unfold small
    rw [hfold, hfixed]
  · have hbase : foldDiacritic lower ∈ baseLetters :=
      (foldDiacritic_cases lower).resolve_left hfold
    refine ⟨(foldDiacritic lower).toLower, (lawful.base _ hbase).2, ?_⟩
    refine iff_of_false ?_ hfold
    intro hsame
    exact hfold (by
      have hsmall := foldDiacritic_base _ (toLower_base _ hbase).1
      rwa [hsame] at hsmall)

theorem small_ne_nil : small unicode character ≠ [] := lawful.some _

theorem small_mem_fixed (h : lower ∈ small unicode character) :
    unicode.lowercase lower = [lower] :=
  lawful.fixed _ lower h

theorem space_notMem_small (h : unicode.isAlphanumeric character = true) :
    ' ' ∉ small unicode character := by
  unfold small
  rcases foldDiacritic_cases character with hsame | hbase
  · rw [hsame]
    exact lawful.spaceless character h
  · exact lawful.spaceless _ (lawful.base _ hbase).1

theorem filter_normalizeFrom (folded : Text) (pending : Bool) (text : Text) :
    (normalizeFrom unicode folded pending text).filter (· ≠ ' ') =
      folded.filter (· ≠ ' ') ++ letters unicode text := by
  induction text generalizing folded pending with
  | nil => simp [normalizeFrom, letters]
  | cons character rest ih =>
    unfold normalizeFrom
    by_cases halnum : unicode.isAlphanumeric character = true
    · have hspace := space_notMem_small lawful halnum
      have hkept : (small unicode character).filter (· ≠ ' ') = small unicode character := by
        refine List.filter_eq_self.mpr ?_
        intro lower hmem
        exact decide_eq_true fun hsame => hspace (hsame ▸ hmem)
      have hletters : letters unicode (character :: rest) =
          small unicode character ++ letters unicode rest := by
        unfold letters
        rw [List.filter_cons_of_pos halnum, List.flatMap_cons]
      rw [if_pos halnum, ih, List.filter_append, hletters]
      change _ ++ (small unicode character).filter _ ++ _ = _
      rw [hkept, List.append_assoc]
      congr 1
      cases pending <;> simp
    · have hletters : letters unicode (character :: rest) = letters unicode rest := by
        unfold letters
        rw [List.filter_cons_of_neg halnum]
      rw [if_neg halnum, ih, hletters]

theorem filter_normalize (text : Text) :
    (normalize unicode text).filter (· ≠ ' ') = letters unicode text := by
  have h := filter_normalizeFrom lawful [] false text
  rwa [List.filter_nil, List.nil_append] at h

theorem letters_normalize (text : Text) :
    letters unicode (normalize unicode text) = letters unicode (letters unicode text) := by
  have hfilter := filter_normalize lawful text
  have hspace : (normalize unicode text).filter unicode.isAlphanumeric =
      ((normalize unicode text).filter (· ≠ ' ')).filter unicode.isAlphanumeric := by
    rw [List.filter_filter]
    refine List.filter_congr ?_
    intro found _
    by_cases hsame : found = ' '
    · rw [hsame, lawful.space, Bool.false_and]
    · simp [hsame]
  unfold letters at hfilter ⊢
  rw [hspace, hfilter]

theorem length_letters_fixed {found : Text}
    (hfixed : ∀ lower ∈ found, unicode.lowercase lower = [lower]) :
    (letters unicode found).length = (found.filter unicode.isAlphanumeric).length := by
  unfold letters
  induction found with
  | nil => rfl
  | cons lower rest ih =>
    have hrest := ih fun other hmem => hfixed other (List.mem_cons_of_mem _ hmem)
    by_cases halnum : unicode.isAlphanumeric lower = true
    · obtain ⟨folded, hsmall, -⟩ := small_fixed lawful (hfixed lower List.mem_cons_self)
      rw [List.filter_cons_of_pos halnum, List.flatMap_cons, hsmall, List.length_append, hrest,
        List.length_singleton, List.length_cons, Nat.add_comm]
    · rw [List.filter_cons_of_neg halnum, hrest]

theorem plain_of_letters {found : Text}
    (hfixed : ∀ lower ∈ found, unicode.lowercase lower = [lower])
    (hsame : letters unicode found = found) :
    ∀ lower ∈ found, unicode.isAlphanumeric lower = true ∧ foldDiacritic lower = lower := by
  have hlength := congrArg List.length hsame
  rw [length_letters_fixed lawful hfixed] at hlength
  have hall := List.length_filter_eq_length_iff.mp hlength
  have hkept : found.filter unicode.isAlphanumeric = found := List.filter_eq_self.mpr hall
  unfold letters at hsame
  rw [hkept] at hsame
  clear hlength hkept
  induction found with
  | nil =>
    intro lower hmem
    cases hmem
  | cons first rest ih =>
    obtain ⟨folded, hsmall, hiff⟩ := small_fixed lawful (hfixed first List.mem_cons_self)
    rw [List.flatMap_cons, hsmall, List.singleton_append] at hsame
    obtain ⟨hfirst, hrest⟩ := List.cons.inj hsame
    intro lower hmem
    rcases List.mem_cons.mp hmem with rfl | hlater
    · exact ⟨hall lower List.mem_cons_self, hiff.mp hfirst⟩
    · exact ih (fun other hother => hfixed other (List.mem_cons_of_mem _ hother))
        hrest (fun other hother => hall other (List.mem_cons_of_mem _ hother)) lower hlater

end Letters

section Again

variable {unicode : Unicode} (lawful : unicode.Lawful) {text : Text}

theorem normalizeFrom_append {found rest folded : Text} {pending : Bool} (hsome : found ≠ [])
    (hplain : ∀ lower ∈ found,
      unicode.isAlphanumeric lower = true ∧ small unicode lower = [lower]) :
    normalizeFrom unicode folded pending (found ++ rest) =
      normalizeFrom unicode ((if pending then folded ++ [' '] else folded) ++ found) false rest := by
  induction found generalizing folded pending with
  | nil => exact absurd rfl hsome
  | cons first others ih =>
    obtain ⟨halnum, hsmall⟩ := hplain first List.mem_cons_self
    unfold small at hsmall
    rw [List.cons_append, normalizeFrom, if_pos halnum, hsmall]
    by_cases hlast : others = []
    · rw [hlast, List.nil_append]
    · rw [ih hlast fun lower hmem => hplain lower (List.mem_cons_of_mem _ hmem)]
      simp [List.append_assoc]

theorem normalizeFrom_skip {found rest folded : Text} {pending : Bool} (hsome : found ≠ [])
    (hapart : ∀ lower ∈ found, unicode.isAlphanumeric lower = false) :
    normalizeFrom unicode folded pending (found ++ rest) =
      normalizeFrom unicode folded (pending || !folded.isEmpty) rest := by
  induction found generalizing pending with
  | nil => exact absurd rfl hsome
  | cons first others ih =>
    rw [List.cons_append, normalizeFrom,
      if_neg (by simp [hapart first List.mem_cons_self])]
    by_cases hlast : others = []
    · rw [hlast, List.nil_append]
    · rw [ih hlast fun lower hmem => hapart lower (List.mem_cons_of_mem _ hmem),
        Bool.or_assoc, Bool.or_self]

include lawful

theorem Settled.plain (h : Settled unicode text) {character : Char} (hmem : character ∈ text)
    (halnum : unicode.isAlphanumeric character = true) : ∀ lower ∈ small unicode character,
      unicode.isAlphanumeric lower = true ∧ small unicode lower = [lower] := by
  intro lower hlower
  obtain ⟨hkept, hfold⟩ := h character hmem halnum lower hlower
  refine ⟨hkept, ?_⟩
  unfold small
  rw [hfold, small_mem_fixed lawful hlower]

theorem normalizeFrom_again {folded : Text} {pending : Bool} (h : Settled unicode text)
    (hpending : pending = true → folded ≠ []) :
    ∃ written, normalizeFrom unicode folded pending text = folded ++ written ∧
      ∀ base : Text, (base = [] ↔ folded = []) →
        normalizeFrom unicode base false written = base ++ written := by
  induction text generalizing folded pending with
  | nil => exact ⟨[], by simp [normalizeFrom], fun base _ => by simp [normalizeFrom]⟩
  | cons character rest ih =>
    have hrest : Settled unicode rest := fun other hmem =>
      h other (List.mem_cons_of_mem _ hmem)
    by_cases halnum : unicode.isAlphanumeric character = true
    · have hplain := h.plain lawful List.mem_cons_self halnum
      have hsome : small unicode character ≠ [] := small_ne_nil lawful
      obtain ⟨written, hwritten, hagain⟩ := @ih
        ((if pending then folded ++ [' '] else folded) ++ small unicode character) false hrest
        (fun hfalse => by cases hfalse)
      refine ⟨(if pending then [' '] else []) ++ small unicode character ++ written, ?_, ?_⟩
      · rw [normalizeFrom, if_pos halnum]
        change normalizeFrom unicode (_ ++ small unicode character) false rest = _
        rw [hwritten]
        cases pending <;> simp
      · intro base hbase
        cases pending with
        | false =>
          rw [if_neg (by simp), List.nil_append, normalizeFrom_append hsome hplain,
            if_neg (by simp), hagain _ (by simp [hsome]), List.append_assoc]
        | true =>
          have hstarted : base ≠ [] := fun hnone => hpending rfl (hbase.mp hnone)
          rw [if_pos rfl, List.append_assoc, List.singleton_append, normalizeFrom,
            if_neg (by simp [lawful.space]), normalizeFrom_append hsome hplain]
          have hnotEmpty : (false || !base.isEmpty) = true := by simpa using hstarted
          rw [hnotEmpty, if_pos rfl, hagain _ (by simp)]
          simp [List.append_assoc]
    · rw [normalizeFrom, if_neg halnum]
      refine ih hrest ?_
      intro hnext
      rcases Bool.or_eq_true_iff.mp hnext with hold | hstarted
      · exact hpending hold
      · simpa using hstarted

theorem normalize_normalize_iff (text : Text) :
    normalize unicode (normalize unicode text) = normalize unicode text ↔
      Settled unicode text := by
  constructor
  · intro h
    have hletters := congrArg (List.filter (· ≠ ' ')) h
    rw [filter_normalize lawful, filter_normalize lawful, letters_normalize lawful] at hletters
    refine settled_iff.mpr (plain_of_letters lawful ?_ hletters)
    intro lower hmem
    obtain ⟨character, -, -, hlower⟩ := mem_letters.mp hmem
    exact small_mem_fixed lawful hlower
  · intro h
    obtain ⟨written, hwritten, hagain⟩ := @normalizeFrom_again _ lawful text [] false h
      (fun hfalse => by cases hfalse)
    have hnormal : normalize unicode text = written := hwritten
    rw [hnormal]
    exact hagain [] Iff.rfl

theorem settled_normalize (text : Text) : Settled unicode (normalize unicode text) := by
  intro lower hmem halnum folded hfolded
  have hspace : lower ≠ ' ' := by
    rintro rfl
    rw [lawful.space] at halnum
    cases halnum
  have hletter : lower ∈ letters unicode text := by
    rw [← filter_normalize lawful text]
    exact List.mem_filter.mpr ⟨hmem, decide_eq_true hspace⟩
  obtain ⟨character, -, -, hlower⟩ := mem_letters.mp hletter
  by_cases hfold : foldDiacritic lower = lower
  · unfold small at hfolded
    rw [hfold, small_mem_fixed lawful hlower, List.mem_singleton] at hfolded
    rw [hfolded]
    exact ⟨halnum, hfold⟩
  · have hbase := (foldDiacritic_cases lower).resolve_left hfold
    unfold small at hfolded
    rw [(lawful.base _ hbase).2, List.mem_singleton] at hfolded
    have hlowered := (toLower_base _ hbase).1
    rw [hfolded]
    exact ⟨(lawful.base _ hlowered).1, foldDiacritic_base _ hlowered⟩

theorem length_letters_lowercase (character : Char) :
    (letters unicode (unicode.lowercase character)).length ≤
      (letters unicode [character]).length := by
  rw [length_letters_fixed lawful (lawful.fixed character)]
  by_cases halnum : unicode.isAlphanumeric character = true
  · have hone : letters unicode [character] = small unicode character := by
      simp [letters, halnum]
    rw [hone]
    by_cases hfold : foldDiacritic character = character
    · unfold small
      rw [hfold]
      exact List.length_filter_le _ _
    · obtain ⟨-, lower, hlower, -, -⟩ := lawful.marked character hfold
      have hbase := (foldDiacritic_cases character).resolve_left hfold
      unfold small
      rw [(lawful.base _ hbase).2, hlower]
      exact List.length_filter_le _ _
  · have hnone : (unicode.lowercase character).filter unicode.isAlphanumeric = [] := by
      refine List.filter_eq_nil_iff.mpr ?_
      intro lower hmem
      rw [lawful.apart character (Bool.not_eq_true _ ▸ halnum) lower hmem]
      exact Bool.false_ne_true
    rw [hnone]
    exact Nat.zero_le _

theorem length_letters_lowercased (text : Text) :
    (letters unicode (lowercased unicode text)).length ≤ (letters unicode text).length := by
  induction text with
  | nil => exact Nat.le_refl _
  | cons character rest ih =>
    have hhere := length_letters_lowercase lawful character
    have hsplit : lowercased unicode (character :: rest) =
        unicode.lowercase character ++ lowercased unicode rest := List.flatMap_cons ..
    rw [hsplit, letters_append, letters_cons character rest, List.length_append,
      List.length_append]
    omega

theorem settled_of_letters_lowercased {text : Text}
    (h : letters unicode (lowercased unicode text) = letters unicode text) :
    Settled unicode text := by
  induction text with
  | nil =>
    intro character hmem
    cases hmem
  | cons character rest ih =>
    have hsplit : lowercased unicode (character :: rest) =
        unicode.lowercase character ++ lowercased unicode rest := List.flatMap_cons ..
    rw [hsplit, letters_append, letters_cons character rest] at h
    have hhere := length_letters_lowercase lawful character
    have hlater := length_letters_lowercased lawful rest
    have hlength := congrArg List.length h
    rw [List.length_append, List.length_append] at hlength
    obtain ⟨hfirst, hrest⟩ := List.append_inj h (by omega)
    intro other hmem halnum lower hlower
    rcases List.mem_cons.mp hmem with rfl | hin
    · have hone : letters unicode [other] = small unicode other := by simp [letters, halnum]
      by_cases hfold : foldDiacritic other = other
      · have hsmall : small unicode other = unicode.lowercase other := by
          unfold small
          rw [hfold]
        rw [hone, hsmall] at hfirst
        rw [hsmall] at hlower
        exact plain_of_letters lawful (lawful.fixed other) hfirst lower hlower
      · have hbase := (foldDiacritic_cases other).resolve_left hfold
        unfold small at hlower
        rw [(lawful.base _ hbase).2, List.mem_singleton] at hlower
        have hlowered := (toLower_base _ hbase).1
        rw [hlower]
        exact ⟨(lawful.base _ hlowered).1, foldDiacritic_base _ hlowered⟩
    · exact ih hrest other hin halnum lower hlower

theorem normalizeFrom_lowercased {folded : Text} {pending : Bool} (h : Settled unicode text) :
    normalizeFrom unicode folded pending (lowercased unicode text) =
      normalizeFrom unicode folded pending text := by
  induction text generalizing folded pending with
  | nil => rfl
  | cons character rest ih =>
    have hrest : Settled unicode rest := fun other hmem => h other (List.mem_cons_of_mem _ hmem)
    have hsplit : lowercased unicode (character :: rest) =
        unicode.lowercase character ++ lowercased unicode rest := List.flatMap_cons ..
    rw [hsplit]
    by_cases halnum : unicode.isAlphanumeric character = true
    · rw [normalizeFrom, if_pos halnum]
      by_cases hfold : foldDiacritic character = character
      · have hplain := h.plain lawful List.mem_cons_self halnum
        unfold small at hplain
        rw [hfold] at hplain ⊢
        rw [normalizeFrom_append (lawful.some character) hplain, ih hrest]
      · obtain ⟨-, lower, hlower, hkept, hmark⟩ := lawful.marked character hfold
        have hbase := (foldDiacritic_cases character).resolve_left hfold
        obtain ⟨hlowered, htwice⟩ := toLower_base _ hbase
        rw [hlower, List.singleton_append, normalizeFrom, if_pos hkept, hmark,
          (lawful.base _ hlowered).2, htwice, (lawful.base _ hbase).2, ih hrest]
    · have hoff : unicode.isAlphanumeric character = false := Bool.not_eq_true _ ▸ halnum
      rw [normalizeFrom, if_neg halnum,
        normalizeFrom_skip (lawful.some character) (lawful.apart character hoff), ih hrest]

theorem normalize_lowercased_iff (text : Text) :
    normalize unicode (lowercased unicode text) = normalize unicode text ↔
      Settled unicode text := by
  constructor
  · intro h
    have hletters := congrArg (List.filter (· ≠ ' ')) h
    rw [filter_normalize lawful, filter_normalize lawful] at hletters
    exact settled_of_letters_lowercased lawful hletters
  · exact normalizeFrom_lowercased lawful

end Again

end LogicalWorks.Session
