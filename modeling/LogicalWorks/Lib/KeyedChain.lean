import Mathlib.Data.List.Induction
import Mathlib.Data.Set.Defs

/-! Tags of a keyed hash taken as a free constructor, the chains folded from a secret key, and
what a party that does not hold the secret derives from the tags it knows. -/
namespace LogicalWorks

inductive SymbolicTag (δ ν : Type) where
  | secret
  | plain (name : ν)
  | keyed (key : SymbolicTag δ ν) (data : δ)
  deriving DecidableEq

namespace SymbolicTag

variable {δ ν : Type} {known : Set (SymbolicTag δ ν)}

def chain (start : SymbolicTag δ ν) (steps : List δ) : SymbolicTag δ ν := steps.foldl keyed start

@[simp] theorem chain_nil (start : SymbolicTag δ ν) : chain start [] = start := rfl

@[simp] theorem chain_append_singleton (start : SymbolicTag δ ν) (steps : List δ) (step : δ) :
    chain start (steps ++ [step]) = keyed (chain start steps) step := by
  unfold chain
  rw [List.foldl_append]
  rfl

theorem chain_secret_inj {steps others : List δ}
    (h : chain (secret : SymbolicTag δ ν) steps = chain secret others) : steps = others := by
  induction steps using List.reverseRecOn generalizing others with
  | nil =>
    cases others using List.reverseRecOn with
    | nil => rfl
    | append_singleton _ _ =>
      rw [chain_append_singleton] at h
      cases h
  | append_singleton steps step ih =>
    cases others using List.reverseRecOn with
    | nil =>
      rw [chain_append_singleton] at h
      cases h
    | append_singleton others other =>
      rw [chain_append_singleton, chain_append_singleton] at h
      obtain ⟨hkey, hdata⟩ := SymbolicTag.keyed.inj h
      rw [ih hkey, hdata]

theorem chain_secret_ne_plain (steps : List δ) (name : ν) :
    chain (secret : SymbolicTag δ ν) steps ≠ plain name := by
  intro h
  cases steps using List.reverseRecOn with
  | nil => cases h
  | append_singleton steps step =>
    rw [chain_append_singleton] at h
    cases h

inductive Derivable (known : Set (SymbolicTag δ ν)) : SymbolicTag δ ν → Prop where
  | held {tag : SymbolicTag δ ν} (h : tag ∈ known) : Derivable known tag
  | plain (name : ν) : Derivable known (plain name)
  | keyed {key : SymbolicTag δ ν} (h : Derivable known key) (data : δ) :
      Derivable known (keyed key data)

theorem Derivable.extends {steps : List δ}
    (h : Derivable known (SymbolicTag.chain secret steps)) :
    ∃ first, first <+: steps ∧ SymbolicTag.chain secret first ∈ known := by
  induction steps using List.reverseRecOn with
  | nil =>
    cases h with
    | held hknown => exact ⟨[], List.prefix_rfl, hknown⟩
  | append_singleton steps step ih =>
    generalize htag : SymbolicTag.chain secret (steps ++ [step]) = tag at h
    cases h with
    | held hknown => exact ⟨steps ++ [step], List.prefix_rfl, htag ▸ hknown⟩
    | plain name => exact absurd htag (chain_secret_ne_plain _ name)
    | keyed hkey data =>
      rw [chain_append_singleton] at htag
      obtain ⟨rfl, rfl⟩ := SymbolicTag.keyed.inj htag
      obtain ⟨first, hfirst, hknown⟩ := ih hkey
      exact ⟨first, hfirst.trans (List.prefix_append _ _), hknown⟩

end SymbolicTag

end LogicalWorks
