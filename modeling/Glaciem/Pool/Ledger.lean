import Glaciem.Lib.Binary64
import Glaciem.Lib.Dict

/-!
# Glaciem — the pool's ledger: configuration, rows and files

The data `pool/server/pool-server.py` keeps on disk and in memory, reduced to the fields the
accounting reads. Amounts are atomic units.

Every row of the credits file carries one field that is not in the JSON, `settlement`: the number of
the settlement that wrote it. No function of the model reads it; it lets theorems speak of rows
written by different settlements.

A file operation may fail. `FileIO` is the outcome of one read-modify-write: whether the load
succeeded and whether the final `os.replace` did.
-/

namespace Glaciem.Pool

/-- The settings of the server. `rounding` is what Python's `*` and `/` on floats and its `/` on
integers do to the exact result. -/
structure Config where
  rounding : Rounding := .float
  poolFeePercent : ℚ := 0
  shareDiffDivisor : Nat := 1000
  maxRecentJobs : Nat := 8
  invalidShareBanAt : Nat := 25
  invalidShareBanSec : ℚ := 900
  maxSharesPerSec : ℚ := 60
  reconcileSafetyAge : Int := 10
  minPayoutAtomic : Int := 10 ^ 11
  coldAddress : String := ""
  coldHotBufferAtomic : Int := 50 * 10 ^ 12

structure CreditEntry where
  height : Nat
  wallet : String
  atomic : Nat
  shares : Nat
  roundShares : Nat
  sponsorshipAtomic : Int
  settlement : Nat
  deriving DecidableEq

def CreditEntry.ident (c : CreditEntry) : CreditEntry := { c with atomic := 0 }

structure BlockRow where
  height : Nat
  rewardAtomic : Nat
  roundShares : Nat
  deriving DecidableEq

structure Sponsorship where
  active : Bool
  perBlockAtomic : Int
  remainingAtomic : Int
  blocksUsed : Int
  deriving DecidableEq

structure MinerStats where
  sharesTotal : Nat := 0
  sharesThisRound : Nat := 0
  blocksFound : Nat := 0
  deriving DecidableEq

structure FileIO where
  loadOk : Bool := true
  saveOk : Bool := true
  deriving DecidableEq

/-- `load_json_file`: a load that fails reads as the default. -/
def loadJsonFile {α : Type} (ok : Bool) (content dflt : α) : α := if ok then content else dflt

def isBase58 (c : Char) : Bool :=
  ('1' ≤ c ∧ c ≤ '9') ∨ ('A' ≤ c ∧ c ≤ 'H') ∨ ('J' ≤ c ∧ c ≤ 'N') ∨ ('P' ≤ c ∧ c ≤ 'Z')
    ∨ ('a' ≤ c ∧ c ≤ 'k') ∨ ('m' ≤ c ∧ c ≤ 'z')

/-- `is_valid_wallet`. The `$` of the pattern also matches before a final newline. -/
def isValidWallet (addr : String) : Bool :=
  match addr.toList with
  | 'R' :: rest =>
    let body := if rest.getLast? = some '\n' then rest.dropLast else rest
    94 ≤ body.length ∧ body.length ≤ 105 ∧ body.all isBase58
  | _ => false

def sampleWallet (c : Char) : String := String.ofList ('R' :: List.replicate 93 '1' ++ [c])

example : isValidWallet (sampleWallet '1') = true := by decide +kernel

def totalAtomic (rows : List CreditEntry) : Nat := (rows.map CreditEntry.atomic).sum

def creditedTo (rows : List CreditEntry) (wallet : String) : Nat :=
  totalAtomic (rows.filter (fun c => c.wallet = wallet))

@[simp] theorem totalAtomic_nil : totalAtomic [] = 0 := rfl

@[simp] theorem totalAtomic_cons (c : CreditEntry) (rows : List CreditEntry) :
    totalAtomic (c :: rows) = c.atomic + totalAtomic rows := by
  simp [totalAtomic]

@[simp] theorem totalAtomic_append (a b : List CreditEntry) :
    totalAtomic (a ++ b) = totalAtomic a + totalAtomic b := by
  simp [totalAtomic]

end Glaciem.Pool
