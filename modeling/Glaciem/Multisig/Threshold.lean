import Glaciem.Multisig.Agreement

/-!
# Glaciem — the threshold of a multisig account

The private key of the account is the sum of one share for each group of `N - M + 1` signers, and a
signer holds the shares of its groups. `M` signers meet every such group, so that together they hold
all shares. Fewer signers leave a whole group out, and lack the share of that group.
-/

namespace Glaciem.Multisig

open Finset

namespace Account

variable {F G : Type} [Field F] [AddCommGroup G] [Module F G] [DecidableEq F] [DecidableEq G]
  {S : Suite F G} {account account' : Account F G}

theorem exists_of_bind_ok {α β : Type} {y : Except String α} {f : α → Except String β} {b : β}
    (hbind : (y >>= f) = .ok b) : ∃ a, y = .ok a ∧ f a = .ok b := by
  cases y with
  | error e => cases hbind
  | ok a => exact ⟨a, rfl, hbind⟩

theorem finalizeKexUpdate_post {result : KeysetMap G} {kexRoundsRequired : Nat}
    (hrounds : account.kexRoundsComplete = kexRoundsRequired)
    (hok : account.finalizeKexUpdate S kexRoundsRequired result = .ok account') :
    account'.multisigPrivkeys = account.multisigPrivkeys
      ∧ account'.multisigPubkey = account.multisigPubkey := by
  rw [finalizeKexUpdate] at hok
  obtain ⟨⟨keys, same⟩, hkeys, hok⟩ := exists_of_bind_ok hok
  rw [finalizeKeys, if_pos hrounds] at hkeys
  obtain ⟨-, -, hkeys⟩ := exists_of_bind_ok hkeys
  obtain ⟨-, -, hkeys⟩ := exists_of_bind_ok hkeys
  cases hkeys
  obtain ⟨msg, -, hok⟩ := exists_of_bind_ok hok
  cases hok
  exact ⟨rfl, rfl⟩

theorem kexUpdate_post {msgs : List (KexMsg F G)} {forceUpdate : Bool}
    (h : ValidConfig account.signers.length account.threshold)
    (hrounds : account.kexRoundsComplete = account.signers.length - account.threshold + 1)
    (hok : account.kexUpdate S msgs forceUpdate = .ok account') :
    account'.multisigPrivkeys = account.multisigPrivkeys
      ∧ account'.multisigPubkey = account.multisigPubkey := by
  have hactive : 0 < account.kexRoundsComplete := by omega
  rw [kexUpdate_eq S h hrounds.le hactive, kexUpdateImpl] at hok
  obtain ⟨-, -, hok⟩ := exists_of_bind_ok hok
  obtain ⟨required, hrequired, hok⟩ := exists_of_bind_ok hok
  rw [multisigKexRoundsRequired_ok h] at hrequired
  cases hrequired
  obtain ⟨-, -, hok⟩ := exists_of_bind_ok hok
  obtain ⟨-, -, hok⟩ := exists_of_bind_ok hok
  obtain ⟨same, hsame, hok⟩ := exists_of_bind_ok hok
  rw [initializeKexUpdate_later S hactive] at hsame
  cases hsame
  obtain ⟨result, -, hok⟩ := exists_of_bind_ok hok
  exact finalizeKexUpdate_post hrounds hok

end Account

namespace Session

variable {F G : Type} [Field F] [AddCommGroup G] [Module F G] {n : Nat} (S : Suite F G)
  (x : Session F G n)

noncomputable def keyShare (T : Finset (Fin n)) : F :=
  x.coefficient S (x.groupKey S x.rounds T) * x.share S T

def SharesDistinct : Prop :=
  ∀ T T' : Finset (Fin n), T.card = x.rounds → T'.card = x.rounds →
    x.keyShare S T = x.keyShare S T' → T = T'

variable {S x}

theorem multisigPubkey_eq :
    x.multisigPubkey S = (∑ T ∈ Finset.univ.powersetCard x.rounds, x.keyShare S T) • S.base := by
  have hperm := (sortKeys_perm S
    ((Finset.univ.powersetCard x.rounds).toList.map (x.groupKey S x.rounds))).map
      fun key => x.coefficient S key • key
  rw [multisigPubkey, finalKeys, hperm.sum_eq, List.map_map, sum_map_toList, sum_smul]
  refine sum_congr rfl fun T _ => ?_
  rw [Function.comp_apply, keyShare, mul_smul, groupKey_rounds]

section

variable [DecidableEq F] [DecidableEq G] (h : x.Honest S)
  {account : Fin n → Account F G} (hheld : ∀ i,
    Lists x.rounds (i ∈ ·) (x.keyShare S) (account i).multisigPrivkeys)

include h hheld

theorem biUnion_privkeys {signers : Finset (Fin n)} (hcard : x.threshold ≤ signers.card) :
    signers.biUnion (fun i => (account i).multisigPrivkeys.toFinset)
      = (Finset.univ.powersetCard x.rounds).image (x.keyShare S) := by
  ext y
  simp only [mem_biUnion, List.mem_toFinset, (hheld _) _, mem_image, mem_powersetCard_univ]
  constructor
  · rintro ⟨i, -, T, -, hT, rfl⟩
    exact ⟨T, hT, rfl⟩
  · rintro ⟨T, hT, rfl⟩
    have hle := h.threshold_le
    have hmeet : (Finset.univ : Finset (Fin n)).card < signers.card + T.card := by
      rw [card_univ, Fintype.card_fin, hT, rounds]
      omega
    obtain ⟨i, hi, hiT⟩ := exists_mem_inter (subset_univ signers) (subset_univ T) hmeet
    exact ⟨i, hi, T, hiT, hT, rfl⟩

omit [DecidableEq F] in
theorem exists_missing_share (hdistinct : x.SharesDistinct S) {signers : Finset (Fin n)}
    (hcard : signers.card < x.threshold) :
    ∃ share, (∃ j, share ∈ (account j).multisigPrivkeys)
      ∧ ∀ i ∈ signers, share ∉ (account i).multisigPrivkeys := by
  have hle := h.threshold_le
  obtain ⟨T, hsub, hT⟩ := exists_subset_card_eq (s := signersᶜ) (n := x.rounds) (by
    rw [card_compl, Fintype.card_fin, rounds]
    omega)
  obtain ⟨j, hj⟩ := card_pos.mp (hT ▸ x.one_le_rounds : 0 < T.card)
  refine ⟨x.keyShare S T, ⟨j, (hheld j _).mpr ⟨T, hj, hT, rfl⟩⟩, fun i hi hmem => ?_⟩
  obtain ⟨T', hiT, hT', heq⟩ := (hheld i _).mp hmem
  rw [← hdistinct T T' hT hT' heq] at hiT
  exact mem_compl.mp (hsub hiT) hi

end

variable [DecidableEq F] [DecidableEq G]

theorem privkeys_of_accountAfter (h : x.Honest S) (hfree : x.CollisionFree S) (hsent : x.Delivers)
    {r : Nat} (hmin : x.rounds ≤ r) (hmax : r ≤ x.rounds + 1) {i : Fin n} {account : Account F G}
    (hrun : x.accountAfter S r i = .ok account) :
    account.multisigPubkey = x.multisigPubkey S
      ∧ Lists x.rounds (i ∈ ·) (x.keyShare S) account.multisigPrivkeys := by
  obtain ⟨last, hlast, hafter⟩ := exists_accountAfter h hfree hsent le_rfl i
  have hdone := hafter.done rfl
  rcases lt_or_ge x.rounds r with hlt | hge
  · -- the round after the last one was read too
    obtain rfl : r = x.rounds + 1 := by omega
    have hpos := x.one_le_rounds
    rw [accountAfter, ok_bind hlast] at hrun
    obtain ⟨msgs, -, hrun⟩ := Account.exists_of_bind_ok hrun
    rw [if_neg (by omega)] at hrun
    obtain ⟨hprivkeys, hpubkey⟩ := Account.kexUpdate_post (hdone.config h)
      (hdone.rounds.trans hdone.rounds_eq.symm) hrun
    rw [hprivkeys, hpubkey]
    exact ⟨hdone.pubkey, hdone.privkeys⟩
  · obtain rfl : r = x.rounds := by omega
    rw [hrun, Except.ok.injEq] at hlast
    subst hlast
    exact ⟨hdone.pubkey, hdone.privkeys⟩

/-- The shares of `M` signers, each counted once, sum to the discrete logarithm of the public key;
fewer signers lack the share of some group. -/
theorem multisig_threshold (h : x.Honest S) (hfree : x.CollisionFree S) (hsent : x.Delivers)
    (hdistinct : x.SharesDistinct S) {r : Nat} (hmin : x.rounds ≤ r) (hmax : r ≤ x.rounds + 1)
    {account : Fin n → Account F G} (hrun : ∀ i, x.accountAfter S r i = .ok (account i)) :
    (∀ signers : Finset (Fin n), x.threshold ≤ signers.card → ∀ i (y : F),
        y • S.base = (account i).multisigPubkey
          ↔ y = ∑ share ∈ signers.biUnion fun j => (account j).multisigPrivkeys.toFinset, share)
      ∧ ∀ signers : Finset (Fin n), signers.card < x.threshold →
        ∃ share, (∃ j, share ∈ (account j).multisigPrivkeys)
          ∧ ∀ i ∈ signers, share ∉ (account i).multisigPrivkeys := by
  have hheld := fun i => privkeys_of_accountAfter h hfree hsent hmin hmax (hrun i)
  refine ⟨fun signers hcard i y => ?_,
    fun signers hcard => exists_missing_share h (fun i => (hheld i).2) hdistinct hcard⟩
  have hsum : ∑ share ∈ (Finset.univ.powersetCard x.rounds).image (x.keyShare S), share
      = ∑ T ∈ Finset.univ.powersetCard x.rounds, x.keyShare S T := by
    refine sum_image fun T hT T' hT' heq => ?_
    exact hdistinct T T' (mem_powersetCard_univ.mp hT) (mem_powersetCard_univ.mp hT')
      heq
  rw [biUnion_privkeys h (fun i => (hheld i).2) hcard, hsum, (hheld i).1, multisigPubkey_eq]
  exact h.smul_base_injective.eq_iff

end Session

theorem sampleSession_sharesDistinct : (sampleSession []).SharesDistinct sampleSuite := by
  unfold Session.SharesDistinct Session.keyShare Session.coefficient
  rw [sampleSession_finalKeys]
  decide +kernel

theorem multisig_threshold_sample :
    ∃ account : Fin 3 → Account (ZMod 101) (ZMod 101),
      (∀ i, (sampleSession []).accountAfter sampleSuite 2 i = .ok (account i))
      ∧ (∀ signers : Finset (Fin 3), 2 ≤ signers.card → ∀ i (y : ZMod 101),
        y • sampleSuite.base = (account i).multisigPubkey
          ↔ y = ∑ share ∈ signers.biUnion fun j => (account j).multisigPrivkeys.toFinset, share)
      ∧ ∀ signers : Finset (Fin 3), signers.card < 2 →
        ∃ share, (∃ j, share ∈ (account j).multisigPrivkeys)
          ∧ ∀ i ∈ signers, share ∉ (account i).multisigPrivkeys := by
  choose account hrun _ using fun i => Session.exists_accountAfter sampleSession_honest
    sampleSession_collisionFree sampleSession_delivers le_rfl i
  exact ⟨account, hrun, Session.multisig_threshold sampleSession_honest sampleSession_collisionFree
    sampleSession_delivers sampleSession_sharesDistinct le_rfl (Nat.le_succ _) hrun⟩

end Glaciem.Multisig
