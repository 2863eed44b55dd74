import LogicalWorks.Session.Canonical
import LogicalWorks.Lib.Table

/-! The learned vocabulary: confirming and revoking phrases, and the table exported and built
again. -/
namespace LogicalWorks.Session

def Alias.new (unicode : Unicode) (question utterance option : Text) : Alias :=
  ⟨question, normalize unicode utterance, option⟩

abbrev Vocabulary := Table Text (Table Text Alias)

namespace Vocabulary

def lookup (vocabulary : Vocabulary) (question utterance : Text) : Option Alias :=
  (vocabulary.get question).bind fun table => table.get utterance

def add (vocabulary : Vocabulary) (row : Alias) : Vocabulary :=
  vocabulary.insert row.question
    (((vocabulary.get row.question).getD Table.empty).insert row.utterance row)

def inKeyOrder {α : Type} (table : Table Text α) : List α :=
  (table.rows.insertionSort fun left right => (compare left.1 right.1).isLE = true).map Prod.snd

def exported (vocabulary : Vocabulary) : List Alias :=
  (inKeyOrder vocabulary).flatMap inKeyOrder

end Vocabulary

namespace LanguageResolver

def new (policy revision : Text) : LanguageResolver := ⟨.empty, policy, revision⟩

def withAliases (policy revision : Text) (rows : List Alias) : LanguageResolver :=
  { new policy revision with aliases := rows.foldl Vocabulary.add .empty }

def learn (resolver : LanguageResolver) (unicode : Unicode) (question utterance option : Text) :
    Option Alias × LanguageResolver :=
  let row := Alias.new unicode question utterance option
  (Vocabulary.lookup resolver.aliases row.question row.utterance,
    { resolver with aliases := Vocabulary.add resolver.aliases row })

def forget (resolver : LanguageResolver) (unicode : Unicode) (question utterance : Text) :
    Option Alias × LanguageResolver :=
  let spoken := normalize unicode utterance
  match resolver.aliases.get question with
  | none => (none, resolver)
  | some table =>
    (table.get spoken,
      { resolver with aliases :=
          if (table.remove spoken).rows = [] then resolver.aliases.remove question
          else resolver.aliases.insert question (table.remove spoken) })

end LanguageResolver

inductive Built (unicode : Unicode) : LanguageResolver → Prop
  | new (policy revision : Text) : Built unicode (.new policy revision)
  | withAliases (policy revision : Text) (rows : List Alias)
      (hrows : ∀ row ∈ rows, ∃ question utterance option,
        row = Alias.new unicode question utterance option) :
      Built unicode (.withAliases policy revision rows)
  | learn {resolver : LanguageResolver} (h : Built unicode resolver)
      (question utterance option : Text) :
      Built unicode (resolver.learn unicode question utterance option).2
  | forget {resolver : LanguageResolver} (h : Built unicode resolver)
      (question utterance : Text) : Built unicode (resolver.forget unicode question utterance).2

namespace Vocabulary

structure Kept (unicode : Unicode) (vocabulary : Vocabulary) : Prop where
  questions : (vocabulary.rows.map Prod.fst).Nodup
  phrases : ∀ question table, vocabulary.get question = some table →
    (table.rows.map Prod.fst).Nodup
  rows : ∀ question utterance row, lookup vocabulary question utterance = some row →
    row.question = question ∧ row.utterance = utterance ∧
      ∃ phrase, utterance = normalize unicode phrase

variable {unicode : Unicode} {vocabulary : Vocabulary}

theorem Kept.empty : Kept unicode .empty :=
  ⟨List.nodup_nil, fun _ _ h => (by cases h), fun _ _ _ h => (by cases h)⟩

theorem lookup_add (vocabulary : Vocabulary) (row : Alias) (question utterance : Text) :
    lookup (add vocabulary row) question utterance =
      if row.question = question ∧ row.utterance = utterance then some row
      else lookup vocabulary question utterance := by
  unfold lookup add
  rw [Table.get_insert]
  by_cases hquestion : question = row.question
  · rw [if_pos hquestion, Option.bind_some, Table.get_insert]
    by_cases hutterance : utterance = row.utterance
    · rw [if_pos hutterance, if_pos ⟨hquestion.symm, hutterance.symm⟩]
    · rw [if_neg hutterance, if_neg fun h => hutterance h.2.symm, hquestion]
      cases vocabulary.get row.question with
      | none => rfl
      | some table => rfl
  · rw [if_neg hquestion, if_neg fun h => hquestion h.1.symm]

theorem Kept.add (kept : Kept unicode vocabulary) {row : Alias}
    (hrow : ∃ phrase, row.utterance = normalize unicode phrase) :
    Kept unicode (add vocabulary row) := by
  refine ⟨Table.nodup_keys_insert _ _ kept.questions, ?_, ?_⟩
  · intro question table htable
    unfold Vocabulary.add at htable
    rw [Table.get_insert] at htable
    split at htable
    · cases htable
      refine Table.nodup_keys_insert _ _ ?_
      cases hold : vocabulary.get row.question with
      | none => exact List.nodup_nil
      | some old => exact kept.phrases _ _ hold
    · exact kept.phrases question table htable
  · intro question utterance found hfound
    rw [lookup_add] at hfound
    split at hfound
    · rename_i hsame
      cases hfound
      exact ⟨hsame.1, hsame.2, hsame.2 ▸ hrow⟩
    · exact kept.rows question utterance found hfound

theorem Kept.foldl {rows : List Alias} (kept : Kept unicode vocabulary)
    (hrows : ∀ row ∈ rows, ∃ phrase, row.utterance = normalize unicode phrase) :
    Kept unicode (rows.foldl Vocabulary.add vocabulary) := by
  induction rows generalizing vocabulary with
  | nil => exact kept
  | cons row rest ih =>
    exact ih (kept.add (hrows row List.mem_cons_self))
      fun other hmem => hrows other (List.mem_cons_of_mem _ hmem)

theorem lookup_remove {table : Table Text Alias} {question spoken : Text}
    (htable : vocabulary.get question = some table) (asked utterance : Text) :
    lookup (if (table.remove spoken).rows = [] then vocabulary.remove question
      else vocabulary.insert question (table.remove spoken)) asked utterance =
      if asked = question ∧ utterance = spoken then none
      else lookup vocabulary asked utterance := by
  unfold lookup
  by_cases hasked : asked = question
  · rw [hasked, htable, Option.bind_some]
    have hremoved := table.get_remove spoken utterance
    split
    · rename_i hempty
      rw [Table.get_remove, if_pos rfl, Option.bind_none]
      have hnone : (table.remove spoken).get utterance = none := by
        unfold Table.get
        rw [hempty]
        rfl
      rw [hremoved] at hnone
      split
      · rfl
      · rename_i hother
        rw [if_neg fun h => hother ⟨rfl, h⟩] at hnone
        exact hnone.symm
    · rw [Table.get_insert, if_pos rfl, Option.bind_some, hremoved]
      by_cases hspoken : utterance = spoken
      · rw [if_pos hspoken, if_pos ⟨rfl, hspoken⟩]
      · rw [if_neg hspoken, if_neg fun h => hspoken h.2]
  · have hnot : ¬ (asked = question ∧ utterance = spoken) := fun h => hasked h.1
    rw [if_neg hnot]
    split
    · rw [Table.get_remove, if_neg hasked]
    · rw [Table.get_insert, if_neg hasked]

theorem Kept.forget (kept : Kept unicode vocabulary) {table : Table Text Alias}
    {question spoken : Text} (htable : vocabulary.get question = some table) :
    Kept unicode (if (table.remove spoken).rows = [] then vocabulary.remove question
      else vocabulary.insert question (table.remove spoken)) := by
  have hremoved : ∀ {β : Type} (rows : Table Text β) (key : Text),
      (rows.rows.map Prod.fst).Nodup → ((rows.remove key).rows.map Prod.fst).Nodup := by
    intro β rows key hnodup
    exact (List.filter_sublist.map Prod.fst).nodup hnodup
  refine ⟨?_, ?_, ?_⟩
  · split
    · exact hremoved _ _ kept.questions
    · exact Table.nodup_keys_insert _ _ kept.questions
  · intro asked found hfound
    split at hfound
    · rw [Table.get_remove] at hfound
      split at hfound
      · cases hfound
      · exact kept.phrases asked found hfound
    · rw [Table.get_insert] at hfound
      split at hfound
      · cases hfound
        exact hremoved _ _ (kept.phrases question table htable)
      · exact kept.phrases asked found hfound
  · intro asked utterance row hrow
    rw [lookup_remove htable] at hrow
    split at hrow
    · cases hrow
    · exact kept.rows asked utterance row hrow

theorem mem_inKeyOrder {α : Type} {table : Table Text α} (hnodup : (table.rows.map Prod.fst).Nodup)
    {value : α} : value ∈ inKeyOrder table ↔ ∃ key, table.get key = some value := by
  unfold inKeyOrder
  simp only [List.mem_map, List.mem_insertionSort]
  constructor
  · rintro ⟨row, hrow, rfl⟩
    exact ⟨row.1, (Table.mem_rows_iff hnodup).mp hrow⟩
  · rintro ⟨key, hkey⟩
    exact ⟨(key, value), (Table.mem_rows_iff hnodup).mpr hkey, rfl⟩

theorem Kept.mem_exported (kept : Kept unicode vocabulary) {row : Alias} :
    row ∈ exported vocabulary ↔ lookup vocabulary row.question row.utterance = some row := by
  unfold exported
  simp only [List.mem_flatMap, mem_inKeyOrder kept.questions]
  constructor
  · rintro ⟨table, ⟨question, htable⟩, hmem⟩
    obtain ⟨utterance, hrow⟩ := (mem_inKeyOrder (kept.phrases question table htable)).mp hmem
    have hlookup : lookup vocabulary question utterance = some row := by
      unfold lookup
      rw [htable, Option.bind_some, hrow]
    obtain ⟨rfl, rfl, -⟩ := kept.rows question utterance row hlookup
    exact hlookup
  · intro hlookup
    have hbind := hlookup
    unfold lookup at hbind
    obtain ⟨table, htable, hrow⟩ := Option.bind_eq_some_iff.mp hbind
    exact ⟨table, ⟨row.question, htable⟩,
      (mem_inKeyOrder (kept.phrases row.question table htable)).mpr ⟨row.utterance, hrow⟩⟩

theorem lookup_foldl (rows : List Alias) (vocabulary : Vocabulary) (question utterance : Text) :
    lookup (rows.foldl add vocabulary) question utterance =
      ((rows.reverse.find? fun row => row.question = question ∧ row.utterance = utterance).or
        (lookup vocabulary question utterance)) := by
  induction rows generalizing vocabulary with
  | nil => rfl
  | cons row rest ih =>
    rw [List.foldl_cons, ih, lookup_add, List.reverse_cons, List.find?_append, Option.or_assoc]
    congr 1
    by_cases hsame : row.question = question ∧ row.utterance = utterance
    · rw [if_pos hsame, List.find?_cons_of_pos (by simpa using hsame), Option.some_or]
    · rw [if_neg hsame, List.find?_cons_of_neg (by simpa using hsame), List.find?_nil,
        Option.none_or]

theorem Kept.lookup_exported (kept : Kept unicode vocabulary) (question utterance : Text) :
    lookup ((exported vocabulary).foldl Vocabulary.add .empty) question utterance =
      lookup vocabulary question utterance := by
  rw [lookup_foldl]
  have hempty : lookup .empty question utterance = none := rfl
  rw [hempty, Option.or_none]
  cases hfound : (exported vocabulary).reverse.find? fun row =>
      row.question = question ∧ row.utterance = utterance with
  | some row =>
    obtain ⟨rfl, rfl⟩ : row.question = question ∧ row.utterance = utterance := by
      simpa using List.find?_some hfound
    exact (kept.mem_exported.mp (List.mem_reverse.mp (List.mem_of_find?_eq_some hfound))).symm
  | none =>
    cases hlookup : lookup vocabulary question utterance with
    | none => rfl
    | some row =>
      obtain ⟨rfl, rfl, -⟩ := kept.rows question utterance row hlookup
      have hmem := List.mem_reverse.mpr (kept.mem_exported.mpr hlookup)
      have hnone := List.find?_eq_none.mp hfound row hmem
      exact absurd (decide_eq_true ⟨rfl, rfl⟩) hnone

end Vocabulary

section Rebuilding

variable {unicode : Unicode} {resolver : LanguageResolver}

theorem Built.kept (h : Built unicode resolver) :
    Vocabulary.Kept unicode resolver.aliases := by
  induction h with
  | new policy revision => exact Vocabulary.Kept.empty
  | withAliases policy revision rows hrows =>
    refine Vocabulary.Kept.foldl Vocabulary.Kept.empty ?_
    intro row hmem
    obtain ⟨question, utterance, option, rfl⟩ := hrows row hmem
    exact ⟨utterance, rfl⟩
  | learn h question utterance option ih => exact ih.add ⟨utterance, rfl⟩
  | @forget resolver h question utterance ih =>
    unfold LanguageResolver.forget
    cases htable : resolver.aliases.get question with
    | none => exact ih
    | some table => exact ih.forget htable

theorem decideFor_congr {other : LanguageResolver}
    (h : ∀ question utterance, aliasOf unicode other.aliases question utterance =
      aliasOf unicode resolver.aliases question utterance)
    (measures : Similarity) (utterance : Text) (question : Question) :
    other.decideFor unicode measures utterance question =
      resolver.decideFor unicode measures utterance question := by
  unfold LanguageResolver.decideFor scoreAll LanguageResolver.superseded
  simp only [h]

def Alias.again (unicode : Unicode) (row : Alias) : Alias :=
  Alias.new unicode row.question row.utterance row.option

/-- Nothing in a text separates words but spaces, and no letter of it has a mark. -/
def Plain (unicode : Unicode) (text : Text) : Prop :=
  ∀ character ∈ text, character = ' ' ∨
    unicode.isAlphanumeric character = true ∧ foldDiacritic character = character

theorem plain_normalize_iff (lawful : unicode.Lawful) (text : Text) :
    Plain unicode (normalize unicode text) ↔ Settled unicode text := by
  rw [settled_iff, ← filter_normalize lawful]
  constructor
  · intro h lower hmem
    obtain ⟨hin, hspace⟩ := List.mem_filter.mp hmem
    exact (h lower hin).resolve_left (of_decide_eq_true hspace)
  · intro h character hmem
    by_cases hspace : character = ' '
    · exact .inl hspace
    · exact .inr (h character (List.mem_filter.mpr ⟨hmem, decide_eq_true hspace⟩))

theorem normalize_again (lawful : unicode.Lawful) (text : Text) :
    normalize unicode (normalize unicode (normalize unicode text)) =
      normalize unicode (normalize unicode text) :=
  (normalize_normalize_iff lawful _).mpr (settled_normalize lawful text)

theorem withAliases_exported (h : Built unicode resolver) (policy revision : Text)
    (measures : Similarity) (utterance : Text) (question : Question) :
    (LanguageResolver.withAliases policy revision
      (Vocabulary.exported resolver.aliases)).decideFor unicode measures utterance question =
        resolver.decideFor unicode measures utterance question := by
  refine decideFor_congr ?_ measures utterance question
  intro asked spoken
  exact h.kept.lookup_exported asked (normalize unicode spoken)

theorem lookup_again (lawful : unicode.Lawful) (h : Built unicode resolver) {row : Alias}
    (hchanged : normalize unicode row.utterance ≠ row.utterance) :
    Vocabulary.lookup (((Vocabulary.exported resolver.aliases).map (Alias.again unicode)).foldl
      Vocabulary.add .empty) row.question row.utterance = none := by
  rw [Vocabulary.lookup_foldl]
  refine Option.or_eq_none_iff.mpr ⟨List.find?_eq_none.mpr ?_, rfl⟩
  intro made hmade hsame
  obtain ⟨other, hother, rfl⟩ := List.mem_map.mp (List.mem_reverse.mp hmade)
  have hutterance : normalize unicode other.utterance = row.utterance :=
    (of_decide_eq_true hsame).2
  obtain ⟨-, -, phrase, hphrase⟩ := h.kept.rows _ _ _ (h.kept.mem_exported.mp hother)
  have hsettled := normalize_again lawful phrase
  rw [← hphrase, hutterance] at hsettled
  exact hchanged hsettled

theorem decideFor_nothing (resolver : LanguageResolver) (measures : Similarity)
    (question utterance : Text) :
    resolver.decideFor unicode measures utterance ⟨question, [], .label⟩ =
      ((aliasOf unicode resolver.aliases question utterance).map fun found =>
        Resolution.staleAlias found.question found.option).getD (.absent 0) := by
  unfold LanguageResolver.decideFor LanguageResolver.superseded
  simp only [reduceCtorEq, if_false, scoreAll, List.zipIdx_nil, List.map_nil, winningTier,
    List.min?_nil, List.insertionSort_nil, decide_, List.contains_nil]
  cases aliasOf unicode resolver.aliases question utterance <;> rfl

theorem again_iff (lawful : unicode.Lawful) (h : Built unicode resolver) (policy revision : Text)
    (measures : Similarity) :
    (∀ utterance question,
      (LanguageResolver.withAliases policy revision ((Vocabulary.exported resolver.aliases).map
        (Alias.again unicode))).decideFor unicode measures utterance question =
          resolver.decideFor unicode measures utterance question) ↔
      ∀ row ∈ Vocabulary.exported resolver.aliases, Plain unicode row.utterance := by
  constructor
  · intro hsame row hrow
    have hlookup := h.kept.mem_exported.mp hrow
    obtain ⟨-, -, phrase, hphrase⟩ := h.kept.rows _ _ _ hlookup
    rw [hphrase, plain_normalize_iff lawful, ← normalize_normalize_iff lawful, ← hphrase]
    by_contra hchanged
    have hlost := lookup_again lawful h hchanged
    -- asked a question that offers nothing, the one resolver reports the row as withdrawn
    have hasked := hsame phrase ⟨row.question, [], .label⟩
    have hfound : aliasOf unicode resolver.aliases row.question phrase = some row := by
      rw [hphrase] at hlookup
      exact hlookup
    have hmissing : aliasOf unicode (LanguageResolver.withAliases policy revision
        ((Vocabulary.exported resolver.aliases).map (Alias.again unicode))).aliases row.question
          phrase = none := by
      rw [hphrase] at hlost
      exact hlost
    rw [decideFor_nothing, decideFor_nothing, hfound, hmissing] at hasked
    cases hasked
  · intro hplain utterance question
    have hrows : (Vocabulary.exported resolver.aliases).map (Alias.again unicode) =
        Vocabulary.exported resolver.aliases := by
      refine (List.map_congr_left ?_).trans (List.map_id _)
      intro row hrow
      obtain ⟨-, -, phrase, hphrase⟩ := h.kept.rows _ _ _ (h.kept.mem_exported.mp hrow)
      have hsettled := hplain row hrow
      rw [hphrase, plain_normalize_iff lawful, ← normalize_normalize_iff lawful, ← hphrase]
        at hsettled
      unfold Alias.again Alias.new
      rw [hsettled]
      rfl
    rw [hrows]
    exact withAliases_exported h policy revision measures utterance question

end Rebuilding

/-- Normal forms are canonical exactly on texts whose letters are settled, and a vocabulary made
again from its rows' fields answers as before exactly when its phrases are plain; made again from
the rows it always does. -/
theorem canonical (unicode : Unicode) (lawful : unicode.Lawful) :
    (∀ text, normalize unicode (normalize unicode text) = normalize unicode text ↔
      Settled unicode text) ∧
    (∀ text, normalize unicode (lowercased unicode text) = normalize unicode text ↔
      Settled unicode text) ∧
    (∀ question utterance option,
      normalize unicode (Alias.new unicode question utterance option).utterance =
        (Alias.new unicode question utterance option).utterance ↔ Settled unicode utterance) ∧
    ∀ resolver, Built unicode resolver → ∀ (policy revision : Text) (measures : Similarity),
      (∀ utterance question,
        (LanguageResolver.withAliases policy revision
          (Vocabulary.exported resolver.aliases)).decideFor unicode measures utterance question =
            resolver.decideFor unicode measures utterance question) ∧
      ((∀ utterance question,
        (LanguageResolver.withAliases policy revision ((Vocabulary.exported resolver.aliases).map
          (Alias.again unicode))).decideFor unicode measures utterance question =
            resolver.decideFor unicode measures utterance question) ↔
        ∀ row ∈ Vocabulary.exported resolver.aliases, Plain unicode row.utterance) := by
  refine ⟨normalize_normalize_iff lawful, normalize_lowercased_iff lawful,
    fun _ utterance _ => normalize_normalize_iff lawful utterance, ?_⟩
  intro resolver hbuilt policy revision measures
  exact ⟨withAliases_exported hbuilt policy revision measures,
    again_iff lawful hbuilt policy revision measures⟩

section Latin

def latinLower (character : Char) : Text :=
  let code := character.toNat
  if 0x41 ≤ code && code ≤ 0x5a then [Char.ofNat (code + 32)]
  else if 0xc0 ≤ code && code ≤ 0xde && code ≠ 0xd7 then [Char.ofNat (code + 32)]
  else if code = 0x130 then ['i', Char.ofNat 0x307]
  else if 0x100 ≤ code && code ≤ 0x137 && code % 2 = 0 then [Char.ofNat (code + 1)]
  else if 0x139 ≤ code && code ≤ 0x148 && code % 2 = 1 then [Char.ofNat (code + 1)]
  else if 0x14a ≤ code && code ≤ 0x177 && code % 2 = 0 then [Char.ofNat (code + 1)]
  else if code = 0x178 then [Char.ofNat 0xff]
  else if 0x179 ≤ code && code ≤ 0x17e && code % 2 = 1 then [Char.ofNat (code + 1)]
  else if code = 0x1e9e then [Char.ofNat 0xdf]
  else [character]

def latinAlphanumeric (character : Char) : Bool :=
  let code := character.toNat
  (0x30 ≤ code && code ≤ 0x39) || (0x41 ≤ code && code ≤ 0x5a) || (0x61 ≤ code && code ≤ 0x7a) ||
    code = 0xaa || code = 0xb2 || code = 0xb3 || code = 0xb5 || code = 0xb9 || code = 0xba ||
    (0xbc ≤ code && code ≤ 0xbe) || (0xc0 ≤ code && code ≤ 0xd6) ||
    (0xd8 ≤ code && code ≤ 0xf6) || (0xf8 ≤ code && code ≤ 0x17f) || code = 0x1e9e

def latin : Unicode := ⟨latinAlphanumeric, latinLower⟩

theorem latin_cases {P : Char → Prop} (hlow : ∀ code < 0x180, P (Char.ofNat code))
    (hsharp : P (Char.ofNat 0x1e9e))
    (hother : ∀ character : Char, 0x180 ≤ character.toNat → character.toNat ≠ 0x1e9e →
      P character) (character : Char) : P character := by
  by_cases hbelow : character.toNat < 0x180
  · have hcharacter := hlow character.toNat hbelow
    rwa [Char.ofNat_toNat] at hcharacter
  · by_cases hcode : character.toNat = 0x1e9e
    · rwa [← hcode, Char.ofNat_toNat] at hsharp
    · exact hother character (Nat.not_lt.mp hbelow) hcode

theorem latinLower_other {character : Char} (h : 0x180 ≤ character.toNat)
    (hcode : character.toNat ≠ 0x1e9e) : latinLower character = [character] := by
  unfold latinLower
  simp only [Bool.and_eq_true, decide_eq_true_eq]
  repeat rw [if_neg (by omega)]

theorem high_ite {character letter rest : Char} {row : Prop} [Decidable row] (hrow : ¬ row)
    (hrest : rest = character) : (if row then letter else rest) = character := by
  rw [if_neg hrow, hrest]

theorem not_within {character first last : Char} {others : List Char}
    (h : 0x180 ≤ character.toNat) (hlast : last.toNat < 0x180)
    (hothers : ∀ other ∈ others, other.toNat < 0x180) :
    ¬ ((first ≤ character && character ≤ last) || others.contains character) = true := by
  have hless : ¬ character ≤ last := by
    intro hle
    have hcode : character.toNat ≤ last.toNat := hle
    omega
  have hnot : character ∉ others := fun hmem => by
    have hcode := hothers character hmem
    omega
  simp [hless, hnot]

theorem not_among {character : Char} {others : List Char} (h : 0x180 ≤ character.toNat)
    (hothers : ∀ other ∈ others, other.toNat < 0x180) :
    ¬ others.contains character = true := by
  have hnot : character ∉ others := fun hmem => by
    have hcode := hothers character hmem
    omega
  simpa using hnot

theorem foldDiacritic_high {character : Char} (h : 0x180 ≤ character.toNat) :
    foldDiacritic character = character := by
  unfold foldDiacritic
  dsimp only
  repeat
    refine high_ite ?_ ?_
    first
      | exact not_within h (by decide) (by decide)
      | exact not_among h (by decide)
  rfl

def foldCode (code : Nat) : Option Char :=
  if (0xe0 ≤ code && code ≤ 0xe5) || [0x101, 0x103, 0x105].contains code then some 'a'
  else if (0xc0 ≤ code && code ≤ 0xc5) || [0x100, 0x102, 0x104].contains code then some 'A'
  else if (0xe8 ≤ code && code ≤ 0xeb) || [0x113, 0x115, 0x117, 0x119, 0x11b].contains code then
    some 'e'
  else if (0xc8 ≤ code && code ≤ 0xcb) || [0x112, 0x114, 0x116, 0x118, 0x11a].contains code then
    some 'E'
  else if (0xec ≤ code && code ≤ 0xef) || [0x129, 0x12b, 0x12d, 0x12f, 0x131].contains code then
    some 'i'
  else if (0xcc ≤ code && code ≤ 0xcf) || [0x128, 0x12a, 0x12c, 0x12e].contains code then some 'I'
  else if (0xf2 ≤ code && code ≤ 0xf6) || [0xf8, 0x14d, 0x14f, 0x151].contains code then some 'o'
  else if (0xd2 ≤ code && code ≤ 0xd6) || [0xd8, 0x14c, 0x14e, 0x150].contains code then some 'O'
  else if (0xf9 ≤ code && code ≤ 0xfc) || [0x16b, 0x16d, 0x16f, 0x171, 0x173].contains code then
    some 'u'
  else if (0xd9 ≤ code && code ≤ 0xdc) || [0x16a, 0x16c, 0x16e, 0x170, 0x172].contains code then
    some 'U'
  else if [0xe7, 0x107, 0x109, 0x10b, 0x10d].contains code then some 'c'
  else if [0xc7, 0x106, 0x108, 0x10a, 0x10c].contains code then some 'C'
  else if [0xf1, 0x144, 0x146, 0x148].contains code then some 'n'
  else if [0xd1, 0x143, 0x145, 0x147].contains code then some 'N'
  else if [0xfd, 0xff, 0x177].contains code then some 'y'
  else if [0xdd, 0x178, 0x176].contains code then some 'Y'
  else if [0xdf, 0x15b, 0x15d, 0x15f, 0x161].contains code then some 's'
  else if [0x15a, 0x15c, 0x15e, 0x160].contains code then some 'S'
  else if [0x17a, 0x17c, 0x17e].contains code then some 'z'
  else if [0x179, 0x17b, 0x17d].contains code then some 'Z'
  else if [0x11d, 0x11f, 0x121, 0x123].contains code then some 'g'
  else if [0x11c, 0x11e, 0x120, 0x122].contains code then some 'G'
  else if [0x142].contains code then some 'l'
  else if [0x141].contains code then some 'L'
  else if [0x159].contains code then some 'r'
  else if [0x158].contains code then some 'R'
  else if [0x163, 0x165, 0x167].contains code then some 't'
  else if [0x162, 0x164, 0x166].contains code then some 'T'
  else if [0x10f, 0x111].contains code then some 'd'
  else if [0x10e, 0x110].contains code then some 'D'
  else if [0xe6].contains code then some 'a'
  else if [0xc6].contains code then some 'A'
  else if [0x153].contains code then some 'o'
  else if [0x152].contains code then some 'O'
  else none

theorem among_code {character : Char} {others : List Char} {codes : List Nat}
    (hcodes : others.map Char.toNat = codes) :
    others.contains character = codes.contains character.toNat := by
  rw [← hcodes, Bool.eq_iff_iff, List.contains_iff_mem, List.contains_iff_mem, List.mem_map]
  constructor
  · exact fun hmem => ⟨character, hmem, rfl⟩
  · rintro ⟨other, hother, hcode⟩
    rwa [← Char.toNat_inj.mp hcode]


theorem within_code {first last character : Char} {others : List Char} {codes : List Nat}
    (hcodes : others.map Char.toNat = codes) :
    ((first ≤ character && character ≤ last) || others.contains character) =
      ((first.toNat ≤ character.toNat && character.toNat ≤ last.toNat) ||
        codes.contains character.toNat) := by
  rw [← hcodes, among_code rfl]
  rfl

theorem row_code {row row' : Bool} {letter rest character : Char} {rest' : Option Char}
    (hrow : row = row') (hrest : rest = rest'.getD character) :
    (if row then letter else rest) = (if row' then some letter else rest').getD character := by
  rw [hrow, hrest]
  cases row' <;> rfl

theorem foldDiacritic_eq (character : Char) :
    foldDiacritic character = (foldCode character.toNat).getD character := by
  unfold foldDiacritic foldCode
  dsimp only
  repeat
    refine row_code ?_ ?_
    first
      | exact within_code (by decide)
      | exact among_code (by decide)
  rfl

theorem toNat_ofNat {code : Nat} (hcode : code < 0x180) : (Char.ofNat code).toNat = code := by
  have hvalid : code.isValidChar := .inl (Nat.lt_trans hcode (by decide))
  rw [Char.ofNat, dif_pos hvalid]
  rfl

theorem not_row {code first last : Nat} {codes : List Nat} (h : code < 0xc0) (hfirst : 0xc0 ≤ first)
    (hcodes : ∀ other ∈ codes, 0xc0 ≤ other) :
    ¬ ((first ≤ code && code ≤ last) || codes.contains code) = true := by
  have hless : ¬ first ≤ code := by omega
  have hnot : code ∉ codes := fun hmem => absurd (hcodes code hmem) (Nat.not_le.mpr h)
  simp [hless, hnot]

theorem foldCode_low {code : Nat} (h : code < 0xc0) : foldCode code = none := by
  have hnot : ∀ codes : List Nat, (∀ other ∈ codes, 0xc0 ≤ other) → ¬ codes.contains code = true :=
    fun codes hcodes hmem =>
      absurd (hcodes code (List.contains_iff_mem.mp hmem)) (Nat.not_le.mpr h)
  unfold foldCode
  repeat
    refine (if_neg ?_).trans ?_
    first
      | exact not_row h (by decide) (by decide)
      | exact hnot _ (by decide)
  rfl

/-- The small form of a marked letter is itself, or stands a fixed way behind it. -/
theorem foldCode_marked : ∀ place < 0xc0, foldCode (0xc0 + place) ≠ none →
    latinAlphanumeric (Char.ofNat (0xc0 + place)) = true ∧
      ∃ small ∈ [0xc0 + place, 0xe0 + place, 0xc1 + place, 0xff],
        latinLower (Char.ofNat (0xc0 + place)) = [Char.ofNat small] ∧
          latinAlphanumeric (Char.ofNat small) = true ∧ small < 0x180 ∧
          foldCode small = (foldCode (0xc0 + place)).map Char.toLower := by
  decide +kernel

theorem latin_marked : ∀ code < 0x180,
    foldDiacritic (Char.ofNat code) ≠ Char.ofNat code →
      latinAlphanumeric (Char.ofNat code) = true ∧
      latinLower (Char.ofNat code) = [(latinLower (Char.ofNat code)).headD ' '] ∧
      latinAlphanumeric ((latinLower (Char.ofNat code)).headD ' ') = true ∧
      foldDiacritic ((latinLower (Char.ofNat code)).headD ' ') =
        (foldDiacritic (Char.ofNat code)).toLower := by
  intro code hcode hmarked
  rw [foldDiacritic_eq, toNat_ofNat hcode] at hmarked
  cases hletter : foldCode code with
  | none =>
    rw [hletter] at hmarked
    exact absurd rfl hmarked
  | some letter =>
    have hsome : foldCode code ≠ none := by
      rw [hletter]
      exact Option.some_ne_none letter
    have hhigh : 0xc0 ≤ code := Nat.not_lt.mp fun hlow => hsome (foldCode_low hlow)
    obtain ⟨place, rfl⟩ := Nat.exists_eq_add_of_le hhigh
    obtain ⟨halnum, small, -, hlower, hkept, hsmall, hfold⟩ :=
      foldCode_marked place (by omega) hsome
    rw [hlower]
    refine ⟨halnum, rfl, hkept, ?_⟩
    change foldDiacritic (Char.ofNat small) = _
    rw [foldDiacritic_eq, foldDiacritic_eq, toNat_ofNat hcode, toNat_ofNat hsmall, hfold, hletter]
    rfl

theorem latin_lawful : latin.Lawful where
  some := by
    refine latin_cases (by decide +kernel) (by decide +kernel) ?_
    intro character h hcode
    change latinLower character ≠ []
    rw [latinLower_other h hcode]
    exact List.cons_ne_nil _ _
  fixed := by
    refine latin_cases (by decide +kernel) (by decide +kernel) ?_
    intro character h hcode lower hlower
    change lower ∈ latinLower character at hlower
    rw [latinLower_other h hcode, List.mem_singleton] at hlower
    rw [hlower]
    exact latinLower_other h hcode
  space := by decide
  spaceless := by
    refine latin_cases (by decide +kernel) (by decide +kernel) ?_
    intro character h hcode _
    change ' ' ∉ latinLower character
    rw [latinLower_other h hcode, List.mem_singleton]
    rintro rfl
    exact absurd h (by decide)
  apart := by
    refine latin_cases (by decide +kernel) (by decide +kernel) ?_
    intro character h hcode hoff lower hlower
    change lower ∈ latinLower character at hlower
    rw [latinLower_other h hcode, List.mem_singleton] at hlower
    rw [hlower]
    exact hoff
  base := by decide +kernel
  marked := by
    refine latin_cases ?_ ?_ ?_
    · intro code hcode hmarked
      obtain ⟨halnum, hone, hkept, hfold⟩ := latin_marked code hcode hmarked
      exact ⟨halnum, _, hone, hkept, hfold⟩
    · intro hmarked
      exact absurd (foldDiacritic_high (by decide)) hmarked
    · intro character h _ hmarked
      exact absurd (foldDiacritic_high h) hmarked

/-- The capital sharp s is put in lower case as it stands, and the small one folds to an s. -/
theorem not_canonical : ¬ ∀ text,
    normalize latin (normalize latin text) = normalize latin text ∧
      normalize latin (lowercased latin text) = normalize latin text := by
  intro h
  exact absurd (h [Char.ofNat 0x1e9e]).1 (by decide)

theorem canonical_latin :
    normalize latin (normalize latin "Ça va?".toList) = normalize latin "Ça va?".toList :=
  ((canonical latin latin_lawful).1 _).mpr (by decide)

end Latin

end LogicalWorks.Session
