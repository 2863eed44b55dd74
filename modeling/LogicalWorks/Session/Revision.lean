import LogicalWorks.Lib.Bytes
import LogicalWorks.Lib.Framed

/-! The digests a receipt carries for the candidates and for the policy. Text is its bytes; the
hash of a stream is a parameter. -/
namespace LogicalWorks.Session

structure Owned where
  bytes : Bytes
  fits : bytes.length ≤ 9223372036854775807
  deriving DecidableEq

def fedOption (option : Owned) : Bytes :=
  Bytes.littleEndian 8 option.bytes.length ++ option.bytes

def fedParameter (bits : UInt64) : Bytes := Bytes.littleEndian 8 bits.toNat

structure PolicyVersion (Digest : Type) where
  label : Owned
  revision : Digest

variable {Digest : Type} (hash : Bytes → Digest)

def optionsRevision (options : List Owned) : Digest := hash (options.flatMap fedOption)

def PolicyVersion.new (label : Owned) (parameters : List UInt64) : PolicyVersion Digest where
  label := label
  revision := hash (label.bytes ++ parameters.flatMap fedParameter)

section Framing

theorem fedOption_prefixFree : PrefixFree fedOption := by
  intro left right rest rest' hsame
  unfold fedOption at hsame
  rw [List.append_assoc, List.append_assoc] at hsame
  obtain ⟨hlength, hback⟩ := List.append_inj hsame (by
    rw [Bytes.length_littleEndian, Bytes.length_littleEndian])
  have hleft : left.bytes.length < 256 ^ 8 := Nat.lt_of_le_of_lt left.fits (by decide)
  have hright : right.bytes.length < 256 ^ 8 := Nat.lt_of_le_of_lt right.fits (by decide)
  have hcount : left.bytes.length = right.bytes.length := by
    rw [← Bytes.ofLittleEndian_littleEndian hleft, hlength,
      Bytes.ofLittleEndian_littleEndian hright]
  obtain ⟨hbytes, hrest⟩ := List.append_inj hback hcount
  refine ⟨?_, hrest⟩
  cases left
  cases right
  cases hbytes
  rfl

theorem fedOption_ne_nil (option : Owned) : fedOption option ≠ [] := by
  intro hnil
  have hlength := congrArg List.length (List.append_eq_nil_iff.mp hnil).1
  rw [Bytes.length_littleEndian] at hlength
  cases hlength

theorem fedParameter_fixedWidth : FixedWidth fedParameter 8 where
  length bits := Bytes.length_littleEndian 8 bits.toNat
  injective left right hsame := by
    have hleft : left.toNat < 256 ^ 8 := left.toNat_lt
    have hright : right.toNat < 256 ^ 8 := right.toNat_lt
    apply UInt64.toNat_inj.mp
    rw [← Bytes.ofLittleEndian_littleEndian hleft, ← Bytes.ofLittleEndian_littleEndian hright]
    exact congrArg Bytes.ofLittleEndian hsame
  positive := by decide

end Framing

/-- The first label is the second one followed by the bytes of parameters, one at least, that the
second list has before those of the first. -/
def RunsInto (label : Owned) (parameters : List UInt64) (label' : Owned)
    (parameters' : List UInt64) : Prop :=
  ∃ shift, shift ≠ [] ∧ label.bytes = label'.bytes ++ shift.flatMap fedParameter ∧
    parameters' = shift ++ parameters

section Injectivity

variable {hash}

theorem optionsRevision_injective (hhash : Function.Injective hash) :
    Function.Injective (optionsRevision hash) := by
  intro options options' hsame
  exact fedOption_prefixFree.flatMap_injective fedOption_ne_nil (hhash hsame)

theorem revision_eq_iff (hhash : Function.Injective hash) {label label' : Owned}
    {parameters parameters' : List UInt64} :
    (PolicyVersion.new hash label parameters).revision =
        (PolicyVersion.new hash label' parameters').revision ↔
      (label = label' ∧ parameters = parameters') ∨
        RunsInto label parameters label' parameters' ∨
          RunsInto label' parameters' label parameters := by
  refine hhash.eq_iff.trans (fedParameter_fixedWidth.append_flatMap_eq_iff.trans ?_)
  constructor
  · rintro ⟨shift, ⟨hlabel, hparameters⟩ | ⟨hlabel, hparameters⟩⟩
    · by_cases hshift : shift = []
      · left
        rw [hshift, List.flatMap_nil, List.append_nil] at hlabel
        rw [hshift, List.nil_append] at hparameters
        refine ⟨?_, hparameters.symm⟩
        cases label
        cases label'
        cases hlabel
        rfl
      · exact .inr (.inl ⟨shift, hshift, hlabel, hparameters⟩)
    · by_cases hshift : shift = []
      · left
        rw [hshift, List.flatMap_nil, List.append_nil] at hlabel
        rw [hshift, List.nil_append] at hparameters
        refine ⟨?_, hparameters⟩
        cases label
        cases label'
        cases hlabel
        rfl
      · exact .inr (.inr ⟨shift, hshift, hlabel, hparameters⟩)
  · rintro (⟨rfl, rfl⟩ | ⟨shift, -, hlabel, hparameters⟩ | ⟨shift, -, hlabel, hparameters⟩)
    · exact ⟨[], .inl ⟨(List.append_nil _).symm, rfl⟩⟩
    · exact ⟨shift, .inl ⟨hlabel, hparameters⟩⟩
    · exact ⟨shift, .inr ⟨hlabel, hparameters⟩⟩

theorem RunsInto.label_ne {label label' : Owned} {parameters parameters' : List UInt64}
    (h : RunsInto label parameters label' parameters') : label ≠ label' := by
  rintro rfl
  obtain ⟨shift, hshift, hlabel, -⟩ := h
  have hnil := List.self_eq_append_right.mp hlabel
  apply hshift
  cases shift with
  | nil => rfl
  | cons bits rest =>
    have hlength := congrArg List.length (List.append_eq_nil_iff.mp hnil).1
    rw [fedParameter_fixedWidth.length] at hlength
    cases hlength

end Injectivity

/-- The digest of the candidates tells their lists apart; that of a policy tells it from another
exactly when neither label runs into the parameters of the other. -/
theorem revisions_identify (hhash : Function.Injective hash) :
    Function.Injective (optionsRevision hash) ∧
    ∀ (label label' : Owned) (parameters parameters' : List UInt64),
      ((PolicyVersion.new hash label parameters).revision =
          (PolicyVersion.new hash label' parameters').revision →
        label = label' ∧ parameters = parameters') ↔
      ¬ RunsInto label parameters label' parameters' ∧
        ¬ RunsInto label' parameters' label parameters := by
  refine ⟨optionsRevision_injective hhash, fun label label' parameters parameters' => ?_⟩
  rw [revision_eq_iff hhash]
  constructor
  · intro h
    refine ⟨fun hinto => ?_, fun hinto => ?_⟩
    · exact hinto.label_ne (h (.inr (.inl hinto))).1
    · exact hinto.label_ne (h (.inr (.inr hinto))).1.symm
  · rintro ⟨hinto, hinto'⟩ (hsame | h | h)
    · exact hsame
    · exact absurd h hinto
    · exact absurd h hinto'

/-- The stream itself for the digest. -/
theorem revisions_identify_stream :
    Function.Injective (optionsRevision fun stream : Bytes => stream) :=
  (revisions_identify (fun stream : Bytes => stream) Function.injective_id).1

/-- A label with one parameter, and a label that spells the parameter out. -/
theorem revision_shared :
    ¬ ∀ (label label' : Owned) (parameters parameters' : List UInt64),
      (PolicyVersion.new (fun stream : Bytes => stream) label parameters).revision =
          (PolicyVersion.new (fun stream : Bytes => stream) label' parameters').revision →
        label = label' ∧ parameters = parameters' := by
  intro h
  have hsame := h ⟨[0x6C, 0x65, 0x78, 0x41, 0x42, 0x43, 0x44, 0x45, 0x46, 0x47, 0x48], by decide⟩
    ⟨[0x6C, 0x65, 0x78], by decide⟩ [] [0x4847464544434241] (by decide)
  cases hsame.2

end LogicalWorks.Session
