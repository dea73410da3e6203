import Mathlib.Tactic

/-!
# Glaciem — recovering a wallet over an existing one

`rime_wallet_recover` of `pow/wallet/rime_wallet.cpp`, which the apps call with the seed of a
wallet, or with an empty seed to open the wallet they have. With a seed it first removes the three
files of the wallet at the path, and then asks the wallet library to write new ones. The files are
gone before it is known whether the seed is one.

* `Library` — the calls of the wallet library, each with any outcome; of those that are made here
  only `recoveryWallet` and `openWallet` write the files of a wallet (`closeWallet` is told not to
  store).
-/

namespace Glaciem.Wallet.Recovery

/-! ## The library -/

/-- The files `path`, `path.keys` and `path.address.txt`. -/
@[ext] structure Files (β : Type) where
  cache : Option β
  keys : Option β
  addressTxt : Option β
  deriving DecidableEq

abbrev Call (α : Type) := Except Unit α

structure WalletCalls where
  /-- it is called three times at most -/
  statusWithErrorString : Nat → Call Unit
  /-- whether it is `Status_Ok` -/
  status : Call Bool
  init : Call Bool
  closeWallet : Call Unit

structure Library (β : Type) where
  /-- whether it is not null -/
  getWalletManager : Call Bool
  /-- which of the files `std::remove` can remove -/
  removesCache : Bool
  removesKeys : Bool
  removesAddressTxt : Bool
  recoveryWallet : String → String → Nat → Files β → Call (Option WalletCalls) × Files β
  walletExists : String → Files β → Call Bool
  openWallet : String → Files β → Call (Option WalletCalls) × Files β
  /-- whether there is memory for the handle -/
  newRimeWallet : Bool

variable {β : Type}

/-! ## The functions -/

def hasDaemon (daemonAddress : Option String) : Bool :=
  match daemonAddress with
  | none => false
  | some address => address ≠ ""

variable (lib : Library β)

def finishOpen (w : Option WalletCalls) (daemonAddress : Option String) : Call Bool :=
  match w with
  | none => return false
  | some w => do
    w.statusWithErrorString 1
    let ok ← w.status
    if !ok then
      w.closeWallet
      return false
    if hasDaemon daemonAddress then
      let _ ← w.init
      w.statusWithErrorString 2
    if !lib.newRimeWallet then
      w.closeWallet
      return false
    return true

def logAndFinish (w : Option WalletCalls) (daemonAddress : Option String) : Call Bool := do
  if let some w := w then
    w.statusWithErrorString 0
  finishOpen lib w daemonAddress

def removeFiles (files : Files β) : Files β where
  cache := if lib.removesCache then none else files.cache
  keys := if lib.removesKeys then none else files.keys
  addressTxt := if lib.removesAddressTxt then none else files.addressTxt

def createFromSeed (path seed : String) (restoreHeight : Nat) (files : Files β) :
    Call (Option WalletCalls) × Files β :=
  lib.recoveryWallet path seed restoreHeight (removeFiles lib files)

def openExisting (path : String) (files : Files β) : Call (Option WalletCalls) × Files β :=
  match lib.walletExists path files with
  | .error e => (.error e, files)
  | .ok false => (.ok none, files)
  | .ok true => lib.openWallet path files

def caught (result : Call Bool) : Bool :=
  match result with
  | .ok handle => handle
  | .error _ => false

def rimeWalletRecover (path seed daemonAddress : Option String) (restoreHeight : Nat)
    (files : Files β) : Bool × Files β :=
  match path, seed with
  | some path, some seed =>
    match lib.getWalletManager with
    | .ok true =>
      let wantCreate := seed ≠ ""
      let (w, files) :=
        if wantCreate then createFromSeed lib path seed restoreHeight files
        else openExisting lib path files
      (caught (do logAndFinish lib (← w) daemonAddress), files)
    | _ => (false, files)
  | _, _ => (false, files)

/-! ## What is left of the files -/

def Usable (w : Call (Option WalletCalls)) (daemonAddress : Option String) : Prop :=
  ∃ wallet, w = .ok (some wallet) ∧ wallet.status = .ok true
    ∧ wallet.statusWithErrorString 0 = .ok () ∧ wallet.statusWithErrorString 1 = .ok ()
    ∧ (hasDaemon daemonAddress = true →
        wallet.init ≠ .error () ∧ wallet.statusWithErrorString 2 = .ok ())
    ∧ lib.newRimeWallet = true

/-- `recoveryWallet` and `openWallet` write files only when the wallet they give is usable. -/
structure WritesOnlyUsable (daemonAddress : Option String) : Prop where
  recovery : ∀ path seed restoreHeight files,
    Usable lib (lib.recoveryWallet path seed restoreHeight files).1 daemonAddress
      ∨ (lib.recoveryWallet path seed restoreHeight files).2 = files
  opening : ∀ path files, Usable lib (lib.openWallet path files).1 daemonAddress
    ∨ (lib.openWallet path files).2 = files

/-- Each file that `std::remove` can remove was not there. -/
def NothingToRemove (files : Files β) : Prop :=
  (lib.removesCache = true → files.cache = none) ∧ (lib.removesKeys = true → files.keys = none)
    ∧ (lib.removesAddressTxt = true → files.addressTxt = none)

section Handle

variable {lib : Library β} {daemonAddress : Option String}

theorem finishOpen_iff (wallet : WalletCalls) :
    finishOpen lib (some wallet) daemonAddress = .ok true ↔
    wallet.status = .ok true ∧ wallet.statusWithErrorString 1 = .ok ()
      ∧ (hasDaemon daemonAddress = true →
          wallet.init ≠ .error () ∧ wallet.statusWithErrorString 2 = .ok ())
      ∧ lib.newRimeWallet = true := by
  unfold finishOpen
  dsimp only
  cases wallet.statusWithErrorString 1 with
  | error e => simp [bind, Except.bind]
  | ok u =>
    cases wallet.status with
    | error e => simp [bind, Except.bind]
    | ok status =>
      cases status with
      | false => cases wallet.closeWallet <;> simp [bind, Except.bind, pure, Except.pure]
      | true =>
        cases hasDaemon daemonAddress with
        | false =>
          cases lib.newRimeWallet <;> cases wallet.closeWallet <;>
            simp [bind, Except.bind, pure, Except.pure]
        | true =>
          cases wallet.init with
          | error e => simp [bind, Except.bind]
          | ok connected =>
            cases wallet.statusWithErrorString 2 with
            | error e => simp [bind, Except.bind]
            | ok u =>
              cases lib.newRimeWallet <;> cases wallet.closeWallet <;>
                simp [bind, Except.bind, pure, Except.pure]

theorem caught_iff (w : Call (Option WalletCalls)) :
    caught (do logAndFinish lib (← w) daemonAddress) = true ↔ Usable lib w daemonAddress := by
  unfold Usable
  rcases w with e | _ | wallet
  · simp [caught, bind, Except.bind]
  · simp [caught, logAndFinish, finishOpen, bind, Except.bind, pure, Except.pure]
  · have hhandle : caught (do logAndFinish lib (← Except.ok (some wallet)) daemonAddress) = true ↔
        wallet.statusWithErrorString 0 = .ok ()
          ∧ finishOpen lib (some wallet) daemonAddress = .ok true := by
      change caught (do wallet.statusWithErrorString 0; finishOpen lib (some wallet) daemonAddress)
        = true ↔ _
      cases wallet.statusWithErrorString 0 with
      | error e => simp [caught, bind, Except.bind]
      | ok u =>
        cases finishOpen lib (some wallet) daemonAddress with
        | error e | ok handle => simp [caught, bind, Except.bind]
    rw [hhandle, finishOpen_iff]
    constructor
    · rintro ⟨hzero, hstatus, hone, hdaemon, hnew⟩
      exact ⟨wallet, rfl, hstatus, hzero, hone, hdaemon, hnew⟩
    · rintro ⟨_, heq, hstatus, hzero, hone, hdaemon, hnew⟩
      cases heq
      exact ⟨hzero, hstatus, hone, hdaemon, hnew⟩

theorem openExisting_keeps (hlib : WritesOnlyUsable lib daemonAddress) (path : String)
    (files : Files β) : Usable lib (openExisting lib path files).1 daemonAddress
      ∨ (openExisting lib path files).2 = files := by
  unfold openExisting
  split
  · exact .inr rfl
  · exact .inr rfl
  · exact hlib.opening path files

theorem removeFiles_eq_iff (files : Files β) :
    removeFiles lib files = files ↔ NothingToRemove lib files := by
  have hone : ∀ (removes : Bool) (file : Option β),
      (if removes then none else file) = file ↔ (removes = true → file = none) := by
    intro removes file
    cases removes <;> simp [eq_comm]
  simp only [removeFiles, NothingToRemove, Files.ext_iff, hone]

/-- Without a handle, the files after a call of the library are those it was given. -/
theorem kept_of_not_usable {w : Call (Option WalletCalls)} {given left : Files β}
    (hkept : Usable lib w daemonAddress ∨ left = given)
    (hnull : caught (do logAndFinish lib (← w) daemonAddress) = false) : left = given := by
  rw [← Bool.not_eq_true, caught_iff] at hnull
  exact hkept.resolve_left hnull

end Handle

/-- With a library that writes files only when all goes well, a call that returns `NULL` leaves the
files as they were if and only if it stopped before the library was asked, or had an empty seed, or
found nothing it could remove. -/
theorem recover_keeps_files_iff (lib : Library β) (path seed daemonAddress : Option String)
    (restoreHeight : Nat) (files : Files β) (hlib : WritesOnlyUsable lib daemonAddress)
    (hnull : (rimeWalletRecover lib path seed daemonAddress restoreHeight files).1 = false) :
    (rimeWalletRecover lib path seed daemonAddress restoreHeight files).2 = files ↔
      path = none ∨ seed = none ∨ lib.getWalletManager ≠ .ok true ∨ seed = some ""
        ∨ NothingToRemove lib files := by
  rw [← removeFiles_eq_iff]
  unfold rimeWalletRecover at hnull ⊢
  cases path with
  | none => simp
  | some path =>
    cases seed with
    | none => simp
    | some seed =>
      dsimp only at hnull ⊢
      split at hnull
      · rename_i hmanager
        simp only [hmanager]
        by_cases hseed : seed = ""
        · rw [if_neg (not_not.mpr hseed)] at hnull ⊢
          simp [hseed, kept_of_not_usable (openExisting_keeps hlib path files) hnull]
        · rw [if_pos hseed] at hnull ⊢
          have hleft : (createFromSeed lib path seed restoreHeight files).2
              = removeFiles lib files :=
            kept_of_not_usable (hlib.recovery path seed restoreHeight _) hnull
          simp [hleft, hseed]
      · rename_i hmanager
        have hnone : lib.getWalletManager ≠ .ok true := hmanager
        simp [hnone]

/-- A library that knows the seed is wrong: it returns a wallet with an error, and writes nothing.
-/
def refusingLibrary : Library Nat where
  getWalletManager := .ok true
  removesCache := true
  removesKeys := true
  removesAddressTxt := true
  recoveryWallet := fun _ _ _ files => (.ok (some ⟨fun _ => .ok (), .ok false, .ok true, .ok ()⟩),
    files)
  walletExists := fun _ files => .ok files.keys.isSome
  openWallet := fun _ files => (.ok (some ⟨fun _ => .ok (), .ok true, .ok true, .ok ()⟩), files)
  newRimeWallet := true

theorem refusingLibrary_writesOnlyUsable (daemonAddress : Option String) :
    WritesOnlyUsable refusingLibrary daemonAddress :=
  ⟨fun _ _ _ _ => .inr rfl, fun _ _ => .inr rfl⟩

/-- Where there was no wallet, none is there afterwards. -/
theorem recover_keeps_no_files :
    (rimeWalletRecover refusingLibrary (some "wallet") (some "abbey abbey") none 0
      ⟨none, none, none⟩).2 = ⟨none, none, none⟩ :=
  (recover_keeps_files_iff refusingLibrary _ _ _ _ _ (refusingLibrary_writesOnlyUsable none)
    (by decide)).mpr (by simp [NothingToRemove])

/-- The wallet that was there is gone. -/
theorem mistyped_seed_removes_wallet :
    rimeWalletRecover refusingLibrary (some "wallet") (some "abbey abbey")
      (some "127.0.0.1:29081") 0
      ⟨some 1, some 2, some 3⟩ = (false, ⟨none, none, none⟩) := by
  decide

end Glaciem.Wallet.Recovery
