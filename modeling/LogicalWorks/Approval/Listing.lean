import LogicalWorks.Approval.Decide
import LogicalWorks.Task.Store.Append
import Mathlib.Data.List.Sort
import Mathlib.Data.String.Basic

/-! The pending listing: a bounded scan of the run store's index, sorted, and filtered by deadline
and decision. -/
namespace LogicalWorks.Approval
open Journal LogicalWorks.Task

structure Committed where
  staged : Store.Staged
  run_pos : 0 < staged.record.run
  run_lt : staged.record.run < 2 ^ 128

def runsOf (committed : List Committed) : Table RunId Store.RunIndex :=
  committed.foldl (fun runs record => Store.insertStep runs record.staged.record) .empty

structure PlainStore where
  index : Store.Index
  committed : List Committed
  runs_eq : index.runs = runsOf committed

structure Host where
  tenant : String
  maxPending : Nat

structure Scanned where
  run : RunId
  key : String
  path : String
  bytes : Bytes
  deriving DecidableEq, Repr

structure PendingApproval where
  id : List Char
  tenant : String
  run : RunId
  path : String
  name : String
  digest : Digest
  payloadLen : Nat
  expiresAt : Nat
  deriving DecidableEq, Repr

inductive FlowError where
  | store (source : Task.StoreError)
  | notADigest (key : String)
  deriving DecidableEq, Repr

section Scan

variable (archive : Archive)

def runsOfTenant (index : Store.Index) (tenant : String) : List RunId :=
  (index.runs.rows.filterMap fun pair => if pair.2.tenant = tenant then some pair.1 else none)
    |>.insertionSort fun left right => runToHex left ≤ runToHex right

def sortedKeys (kept : Store.RunIndex) : List String :=
  (kept.steps.rows.map Prod.fst).insertionSort (· ≤ ·)

def scanned? (kept : Store.RunIndex) (run : RunId) (key : String) : Option Scanned :=
  match kept.steps.get key with
  | none => none
  | some step =>
    match classifyRecord archive step.bytes with
    | .pending _ => some ⟨run, key, step.path, step.bytes⟩
    | .decision _ | .other => none

def scanKeys (limit : Nat) (kept : Store.RunIndex) (run : RunId) :
    List Scanned → List String → List Scanned
  | out, [] => out
  | out, key :: rest =>
    if limit ≤ out.length then out
    else scanKeys limit kept run (out ++ (scanned? archive kept run key).toList) rest

def scanRuns (limit : Nat) (index : Store.Index) : List Scanned → List RunId → List Scanned
  | out, [] => out
  | out, run :: rest =>
    match index.runs.get run with
    | none => scanRuns limit index out rest
    | some kept =>
      let out := scanKeys archive limit kept run out (sortedKeys kept)
      if limit ≤ out.length then out else scanRuns limit index out rest

def pendingScan (index : Store.Index) (tenant : String) (limit : Nat) : List Scanned :=
  (scanRuns archive limit index [] (runsOfTenant index tenant)).insertionSort fun left right =>
    left.key < right.key ∨ left.key = right.key ∧ left.path ≤ right.path

def pendingFor (decided : RunId → String → Except Task.StoreError Bool) (tenant : String)
    (limit now : Nat) : List PendingApproval → List Scanned → Except FlowError (List PendingApproval)
  | out, [] => .ok out
  | out, row :: rest =>
    if limit ≤ out.length then .ok out
    else
      match classifyRecord archive row.bytes with
      | .pending pending =>
        if pending.expiresAt ≤ now then pendingFor decided tenant limit now out rest
        else
          match decided row.run pending.path with
          | .error source => .error (.store source)
          | .ok true => pendingFor decided tenant limit now out rest
          | .ok false =>
            match digestFromHex row.key.toList with
            | none => .error (.notADigest row.key)
            | some key =>
              pendingFor decided tenant limit now
                (out ++ [⟨(ApprovalId.mk row.run key).toText, tenant, row.run, row.path,
                  pending.name, pending.digest, pending.payload.length,
                  pending.expiresAt⟩]) rest
      | .decision _ | .other => pendingFor decided tenant limit now out rest

def lookupOf (index : Store.Index) (tenant : String) (run : RunId) (key : Digest) : Found :=
  (Store.lookup index tenant run key.bytes).map fun held => held.map Store.Held.bytes

/-- Whether a record is filed under the decision key beside an approval. -/
def decidedIn (index : Store.Index) (tenant : String) (run : RunId) (path : String) :
    Except Task.StoreError Bool :=
  (lookupOf index tenant run (decisionKeyFor archive tenant path)).map Option.isSome

def Host.pending (host : Host) (store : PlainStore) (limit now : Nat) :
    Except FlowError (List PendingApproval) :=
  let cap := min limit host.maxPending
  pendingFor archive (decidedIn archive store.index host.tenant) host.tenant cap now []
    (pendingScan archive store.index host.tenant cap)

end Scan

section Store

/-- What an index that folded committed records is: each run and each step once, under the spellings
of runs and of digests. -/
structure WellKept (runs : Table RunId Store.RunIndex) : Prop where
  runs_nodup : (runs.rows.map Prod.fst).Nodup
  run : ∀ run kept, runs.get run = some kept → 0 < run ∧ run < 2 ^ 128
  steps_nodup : ∀ run kept, runs.get run = some kept → (kept.steps.rows.map Prod.fst).Nodup
  key : ∀ run kept key held, runs.get run = some kept → kept.steps.get key = some held →
    ∃ digest : Digest, key = hexOf digest.bytes

theorem wellKept_runsOf (committed : List Committed) : WellKept (runsOf committed) := by
  induction committed using List.reverseRecOn with
  | nil => exact ⟨List.nodup_nil, nofun, nofun, nofun⟩
  | append_singleton earlier last ih =>
    have hfold : runsOf (earlier ++ [last]) =
        Store.insertStep (runsOf earlier) last.staged.record := by
      unfold runsOf
      rw [List.foldl_append, List.foldl_cons, List.foldl_nil]
    rw [hfold]
    unfold Store.insertStep
    have hentry : ((((runsOf earlier).get last.staged.record.run).getD ⟨last.staged.record.tenant,
        last.staged.record.definition.toIdentity, .empty⟩).steps.rows.map Prod.fst).Nodup := by
      cases hget : (runsOf earlier).get last.staged.record.run with
      | none => exact List.nodup_nil
      | some kept => exact ih.steps_nodup _ _ hget
    constructor
    case runs_nodup => exact Table.nodup_keys_insert _ _ ih.runs_nodup
    case run =>
      intro run kept hget
      rw [Table.get_insert] at hget
      split at hget
      · rename_i heq
        rw [heq]
        exact ⟨last.run_pos, last.run_lt⟩
      · exact ih.run run kept hget
    case steps_nodup =>
      intro run kept hget
      rw [Table.get_insert] at hget
      split at hget
      · cases hget
        exact Table.nodup_keys_insert _ _ hentry
      · exact ih.steps_nodup run kept hget
    case key =>
      intro run kept key held hget hheld
      rw [Table.get_insert] at hget
      split at hget
      · cases hget
        dsimp only at hheld
        rw [Table.get_insert] at hheld
        split at hheld
        · rename_i heq
          exact ⟨last.staged.key, by rw [heq, last.staged.record_key]⟩
        · cases hentryGet : (runsOf earlier).get last.staged.record.run with
          | none =>
            rw [hentryGet] at hheld
            cases hheld
          | some earlierKept =>
            rw [hentryGet] at hheld
            exact ih.key _ _ _ _ hentryGet hheld
      · exact ih.key run kept key held hget hheld

end Store

end LogicalWorks.Approval
