import Glaciem.Multisig.Session

/-!
# Glaciem — agreement of the signers

After the rounds of the exchange every signer has the same public key, whatever it was sent twice.
The common key is another matter: in the first round an account collects one base common key for
each message it reads, so that a message read twice counts twice. The comment in
`initialize_kex_update` expects an error for such a message; there is none, and the signers only
notice in the round after the last one.
-/

namespace Glaciem.Multisig

open List

namespace Session

variable {F G : Type} [Field F] [AddCommGroup G] [Module F G] [DecidableEq F] [DecidableEq G]
  {n : Nat} {S : Suite F G} {x : Session F G n}

/-! ## The round after the last -/

section

variable (h : x.Honest S) (hfree : x.CollisionFree S) {i : Fin n}
  (hcommon : ∀ i j, x.commonPrivkey S i = x.commonPrivkey S j) {message : Fin n → KexMsg F G}
  (hmsgs : ∀ j, x.Message S j (x.rounds + 1) (message j)) {senders : List (Fin n)}

include hcommon hmsgs in
omit [DecidableEq F] in
theorem mem_owners_post {key origin : G} :
    origin ∈ ((senders.map message).foldl (sanitizeMsg (x.rounds + 1) [])
        (KeyIndex.empty : KeysetMap G)).owners key
      ↔ (∃ j ∈ senders, x.pubkey S j = origin)
        ∧ (key = x.multisigPubkey S ∨ key = x.commonPrivkey S i • S.base) := by
  have hround : x.rounds + 1 ≠ 1 := by have := x.one_le_rounds; omega
  have hkeys : ∀ j, (message j).recommended (x.rounds + 1) []
      = [x.multisigPubkey S, x.commonPrivkey S i • S.base] := by
    intro j
    rw [KexMsg.recommended, if_neg hround, (hmsgs j).last rfl, hcommon j i]
    exact filter_eq_self.mpr fun _ _ => rfl
  rw [mem_owners_sanitized]
  simp only [mem_map, exists_exists_and_eq_and, hkeys, (hmsgs _).signer, mem_cons,
    not_mem_nil, or_false]
  constructor
  · rintro ⟨j, hj, horigin, hkey⟩
    exact ⟨⟨j, hj, horigin⟩, hkey⟩
  · rintro ⟨⟨j, hj, horigin⟩, hkey⟩
    exact ⟨j, hj, horigin, hkey⟩

variable {incomplete : Bool}

include h hfree hcommon hmsgs in
omit [DecidableEq F] in
theorem exists_evaluated_post {signers : List G} (hne : senders ≠ [])
    (hsigners : signers.Perm (ofFn (x.pubkey S)))
    (hsent : incomplete = false → ∀ j, j ≠ i → j ∈ senders) :
    ∃ evaluated : KeysetMap G, evaluateMultisigPostKexRoundMsgs (x.pubkey S i) (x.rounds + 1)
        signers (senders.map message) incomplete = .ok evaluated
      ∧ x.multisigPubkey S ∈ evaluated.keys ∧ x.commonPrivkey S i • S.base ∈ evaluated.keys := by
  obtain ⟨j₀, hj₀⟩ := exists_mem_of_ne_nil senders hne
  set evaluated := (senders.map message).foldl (sanitizeMsg (x.rounds + 1) [])
    (KeyIndex.empty : KeysetMap G) with hevaluated
  have howners : ∀ {key origin : G}, origin ∈ evaluated.owners key
      ↔ (∃ j ∈ senders, x.pubkey S j = origin)
        ∧ (key = x.multisigPubkey S ∨ key = x.commonPrivkey S i • S.base) :=
    mem_owners_post hcommon hmsgs
  have hkeys : ∀ key, key ∈ evaluated.keys
      ↔ key = x.multisigPubkey S ∨ key = x.commonPrivkey S i • S.base := by
    intro key
    rw [KeyIndex.mem_keys]
    constructor
    · rintro ⟨origin, horigin⟩
      exact (howners.mp horigin).2
    · intro hkey
      exact ⟨x.pubkey S j₀, howners.mpr ⟨⟨j₀, hj₀, rfl⟩, hkey⟩⟩
  have hall : ∀ origin, origin ∈ evaluated.allOwners ↔ ∃ j ∈ senders, x.pubkey S j = origin := by
    intro origin
    rw [KeyIndex.mem_allOwners]
    constructor
    · rintro ⟨key, horigin⟩
      exact (howners.mp horigin).1
    · intro hj
      exact ⟨x.multisigPubkey S, howners.mpr ⟨hj, .inl rfl⟩⟩
  have hsigner : ∀ j, x.pubkey S j ∈ signers := fun j =>
    hsigners.mem_iff.mpr (mem_ofFn.mpr ⟨j, rfl⟩)
  refine ⟨evaluated, evaluateMultisigPostKexRoundMsgs_ok (inRound_map hmsgs hne)
    hevaluated.symm ?_ ?_ ?_ ?_, (hkeys _).mpr (.inl rfl), (hkeys _).mpr (.inr rfl)⟩
  · have hpair : evaluated.keys.toFinset
        = {x.multisigPubkey S, x.commonPrivkey S i • S.base} := by
      ext key
      rw [mem_toFinset, hkeys, Finset.mem_insert, Finset.mem_singleton]
    rw [← toFinset_card_of_nodup evaluated.nodup_keys, hpair,
      Finset.card_pair (hfree.pubkey_ne_common i)]
  · intro a ha b hb
    ext origin
    rw [howners, howners, and_iff_left ((hkeys a).mp ha), and_iff_left ((hkeys b).mp hb)]
  · cases incomplete with
    | true => exact Finset.card_pos.mpr ⟨x.pubkey S i, Finset.mem_insert_self _ _⟩
    | false =>
      have hsub : Finset.univ.image (x.pubkey S) ⊆ insert (x.pubkey S i) evaluated.allOwners := by
        intro origin horigin
        obtain ⟨j, -, rfl⟩ := Finset.mem_image.mp horigin
        by_cases hij : j = i
        · exact hij ▸ Finset.mem_insert_self _ _
        · exact Finset.mem_insert_of_mem ((hall _).mpr ⟨j, hsent rfl j hij, rfl⟩)
      have hcard := Finset.card_le_card hsub
      rw [Finset.card_image_of_injective _ h.pubkey_injective, Finset.card_univ,
        Fintype.card_fin] at hcard
      rw [hsigners.length_eq, length_ofFn]
      exact hcard
  · intro origin horigin
    rcases Finset.mem_insert.mp horigin with rfl | horigin
    · exact hsigner i
    · obtain ⟨j, -, rfl⟩ := (hall origin).mp horigin
      exact hsigner j

include h hfree hcommon hmsgs in
omit [DecidableEq F] in
theorem Done.process_ok {account : Account F G} (ha : x.Done S i account)
    (hne : senders ≠ []) (hsent : incomplete = false → ∀ j, j ≠ i → j ∈ senders) :
    ∃ evaluated : KeysetMap G, multisigKexProcessRoundMsgs S account.basePrivkey account.basePubkey
        (account.kexRoundsComplete + 1) account.threshold account.signers (senders.map message)
        account.getKexExcludePubkeys incomplete = .ok evaluated
      ∧ account.multisigPubkey ∈ evaluated.keys ∧ account.commonPubkey ∈ evaluated.keys := by
  have hlength := length_of_perm ha.signers
  obtain ⟨evaluated, heval, hmultisig, hcommonKey⟩ :=
    exists_evaluated_post h hfree hcommon hmsgs hne ha.signers hsent
  rw [ha.basePubkey, ha.rounds, ha.threshold, ha.pubkey, ha.common]
  refine ⟨evaluated, ?_, hmultisig, hcommonKey⟩
  have hrequired : account.signers.length - x.threshold + 1 = x.rounds := by
    rw [hlength, Session.rounds]
  refine (multisigKexProcessRoundMsgs_ok S account.basePrivkey (hlength.symm ▸ h.config) (by omega)
    (by rw [hrequired]) ?_).trans (congrArg Except.ok (if_neg (by omega)))
  rw [evaluatedKeys, hrequired, if_neg (by omega), if_neg (by omega)]
  exact heval

include h hfree hcommon hmsgs in
theorem Done.kexUpdate_ok {account : Account F G} (ha : x.Done S i account)
    (hne : senders ≠ []) (hsent : incomplete = false → ∀ j, j ≠ i → j ∈ senders) :
    ∃ account', account.kexUpdate S (senders.map message) incomplete = .ok account'
      ∧ account'.multisigIsReady = .ok true := by
  have hconfig := ha.config h
  have hrequired := ha.rounds_eq
  have hactive : 0 < account.kexRoundsComplete := ha.rounds.symm ▸ x.one_le_rounds
  have hlast := (ha.rounds.trans hrequired.symm).le
  obtain ⟨evaluated, hprocess, hmultisig, hcommonKey⟩ :=
    ha.process_ok h hfree hcommon hmsgs hne hsent
  have hkeys : account.finalizeKeys S (account.signers.length - account.threshold + 1) evaluated
      = .ok ([account.multisigPubkey, account.commonPubkey], account) := by
    rw [Account.finalizeKeys, if_pos (ha.rounds.trans hrequired.symm)]
    refine (check_bind hmultisig _).trans ?_
    exact check_bind hcommonKey _
  have hnonzero : ∀ key ∈ [account.multisigPubkey, account.commonPubkey], key ≠ 0 := by
    rw [forall_mem_cons, forall_mem_singleton, ha.pubkey, ha.common]
    exact ⟨hfree.pubkey_ne, smul_ne_zero (hfree.common_ne i) h.base_ne⟩
  have hfinal := Account.finalizeKexUpdate_ok S hkeys (Nat.le_add_left 1 _)
    (ha.basePrivkey ▸ h.privkey_ne i) hnonzero
  refine ⟨_, (Account.kexUpdate_eq S hconfig hlast hactive _ _).trans
    (Account.kexUpdateImpl_ok S hconfig hlast (ha.rounds ▸ inRound_map hmsgs hne)
      (Account.initializeKexUpdate_later S hactive) hprocess hfinal), ?_⟩
  refine (Account.multisigIsReady_ok ?_ ?_).trans (congrArg Except.ok (decide_eq_true ?_))
  · exact hconfig
  · exact Nat.succ_pos _
  · show account.signers.length - account.threshold + 1 + 1 ≤ account.kexRoundsComplete + 1
    rw [hrequired, ha.rounds]

end

/-! ## Agreement -/

section

variable (h : x.Honest S) (hfree : x.CollisionFree S) (hsent : x.Delivers)

include hfree in
omit [DecidableEq F] [DecidableEq G] in
theorem commonPrivkey_eq_iff (i j : Fin n) :
    x.commonPrivkey S i = x.commonPrivkey S j ↔ (x.collected i).Perm (x.collected j) := by
  constructor
  · intro heq
    have hsorted := hfree.common i j heq
    have hi := perm_insertionSort (fun a b => S.secretBytes a ≤ S.secretBytes b) (x.collected i)
    have hj := perm_insertionSort (fun a b => S.secretBytes a ≤ S.secretBytes b) (x.collected j)
    exact hi.symm.trans ((Perm.of_eq hsorted).trans hj)
  · intro hperm
    exact congrArg S.hashCommon (insertionSort_eq_of_perm S.secretBytes_injective hperm)

include h hfree hsent in
theorem exists_accountAfter_post (hcommon : ∀ i j, x.commonPrivkey S i = x.commonPrivkey S j)
    (i : Fin n) : ∃ account, x.accountAfter S (x.rounds + 1) i = .ok account
      ∧ account.multisigIsReady = .ok true := by
  choose account haccount hafter using fun j => exists_accountAfter h hfree hsent le_rfl j
  have hread := mapM_parse_ok h hfree haccount (fun j => (hafter j).message) le_rfl
    (x.delivery (x.rounds + 1) i).senders
  have hpos := x.one_le_rounds
  rw [accountAfter, ok_bind (haccount i), ok_bind hread, if_neg (by omega)]
  refine ((hafter i).done rfl).kexUpdate_ok h hfree hcommon (fun j => (hafter j).message)
    (senders_ne_nil h hsent (by omega) le_rfl i) fun hforce => ?_
  have hround := hsent (x.rounds + 1) i (by omega) le_rfl
  rw [hforce, if_neg (by simp)] at hround
  exact hround

/-- Whatever the schedule, the signers complete every round and end with the same public key and the
same common key exactly when all collected the same base common keys in the first round. -/
theorem multisig_agreement_iff (h : x.Honest S) (hfree : x.CollisionFree S) (hsent : x.Delivers) :
    ((∀ r ≤ x.rounds, ∀ i, ∃ account, x.accountAfter S r i = .ok account)
        ∧ (∃ multisigPubkey commonPubkey, ∀ i account, x.accountAfter S x.rounds i = .ok account →
            account.multisigPubkey = multisigPubkey ∧ account.commonPubkey = commonPubkey)
        ∧ ∀ i, ∃ account, x.accountAfter S (x.rounds + 1) i = .ok account
          ∧ account.multisigIsReady = .ok true)
      ↔ ∀ i j, (x.collected i).Perm (x.collected j) := by
  have hdone : ∀ i account, x.accountAfter S x.rounds i = .ok account → x.Done S i account := by
    intro i account haccount
    obtain ⟨account', haccount', hafter⟩ := exists_accountAfter h hfree hsent le_rfl i
    rw [haccount, Except.ok.injEq] at haccount'
    exact haccount' ▸ hafter.done rfl
  simp only [← commonPrivkey_eq_iff hfree]
  constructor
  · rintro ⟨hruns, ⟨multisigPubkey, commonPubkey, hsame⟩, -⟩ i j
    obtain ⟨account, haccount⟩ := hruns x.rounds le_rfl i
    obtain ⟨account', haccount'⟩ := hruns x.rounds le_rfl j
    refine h.smul_base_injective ?_
    show x.commonPrivkey S i • S.base = x.commonPrivkey S j • S.base
    rw [← (hdone i account haccount).common, ← (hdone j account' haccount').common,
      (hsame i account haccount).2, (hsame j account' haccount').2]
  · intro hcommon
    have i₀ : Fin n := ⟨0, by have := h.two_le; omega⟩
    refine ⟨fun r hr i => ?_, ⟨x.multisigPubkey S, x.commonPrivkey S i₀ • S.base,
      fun i account haccount => ⟨(hdone i account haccount).pubkey, ?_⟩⟩,
      exists_accountAfter_post h hfree hsent hcommon⟩
    · obtain ⟨account, haccount, -⟩ := exists_accountAfter h hfree hsent hr i
      exact ⟨account, haccount⟩
    · rw [(hdone i account haccount).common, hcommon i i₀]

end

end Session

/-! ## A message that was read twice -/

instance factPrime : Fact (Nat.Prime 101) := ⟨by norm_num⟩

def sampleSuite : Suite (ZMod 101) (ZMod 101) where
  base := 1
  publicBytes := ZMod.val
  secretBytes := ZMod.val
  publicBytes_injective := ZMod.val_injective 101
  secretBytes_injective := ZMod.val_injective 101
  hashCommon keys := keys.foldl (fun hash key => 3 * hash + key) 1
  hashDerivation derivation := derivation + 1
  hashAggregation keys := keys.foldl (fun hash key => 3 * hash + key) 2
  binomialCoefficient n k := n.choose k
  binomialCoefficient_near n k _ _ := by simp

/-- A 2-of-3 exchange in which signer 2 forces round 2 with one message, and signer 0 reads some
messages of round 1 again. -/
def sampleSession (again : List (Fin 3)) : Session (ZMod 101) (ZMod 101) 3 where
  threshold := 2
  basePrivkey := ![2, 3, 5]
  baseCommonPrivkey := ![7, 11, 13]
  signers _ := [2, 3, 5]
  delivery r i :=
    if r = 1 ∧ i = 0 then ⟨[1, 2] ++ again, false⟩
    else if r = 2 ∧ i = 2 then ⟨[0], true⟩
    else ⟨(finRange 3).filter (· ≠ i), false⟩

theorem sampleSession_honest : (sampleSession []).Honest sampleSuite where
  two_le := by decide
  le_max := by decide
  threshold_pos := by decide
  threshold_le := by decide
  base_ne := by decide
  eight_ne := by decide
  privkey_ne := by decide
  privkey_injective := by decide
  common_ne := by decide
  signers_perm := by decide

theorem sampleSession_delivers : (sampleSession []).Delivers := by
  intro r i hr hle
  have hround : r = 1 ∨ r = 2 ∨ r = 3 := by
    have hrounds : (sampleSession []).rounds + 1 = 3 := rfl
    omega
  rcases hround with rfl | rfl | rfl <;> revert i <;> decide

theorem sampleSession_finalKeys : (sampleSession []).finalKeys sampleSuite = [20, 49, 81] := by
  have hgroups : (Finset.univ.powersetCard 2 : Finset (Finset (Fin 3))).toList.Perm
      [{0, 1}, {0, 2}, {1, 2}] := by
    rw [← Multiset.coe_eq_coe, Finset.coe_toList]
    decide
  refine (insertionSort_eq_of_perm (ZMod.val_injective 101) (hgroups.map _)).trans ?_
  decide +kernel

theorem sampleSession_multisigPubkey : (sampleSession []).multisigPubkey sampleSuite = 25 := by
  unfold Session.multisigPubkey Session.coefficient
  rw [sampleSession_finalKeys]
  decide +kernel

theorem sampleSession_collisionFree : (sampleSession []).CollisionFree sampleSuite where
  group := by
    have hrounds : (sampleSession []).rounds = 2 := rfl
    rw [hrounds]
    decide +kernel
  share_ne := by decide +kernel
  coefficient_ne := by
    unfold Session.coefficient
    rw [sampleSession_finalKeys]
    decide +kernel
  common := by decide +kernel
  common_ne := by decide +kernel
  pubkey_ne := by
    rw [sampleSession_multisigPubkey]
    decide
  pubkey_ne_common := by
    rw [sampleSession_multisigPubkey]
    decide +kernel

theorem multisig_agreement_iff_sample :
    (∀ r ≤ 2, ∀ i, ∃ account, (sampleSession []).accountAfter sampleSuite r i = .ok account)
      ∧ (∃ multisigPubkey commonPubkey, ∀ i account,
        (sampleSession []).accountAfter sampleSuite 2 i = .ok account →
          account.multisigPubkey = multisigPubkey ∧ account.commonPubkey = commonPubkey)
      ∧ ∀ i, ∃ account, (sampleSession []).accountAfter sampleSuite 3 i = .ok account
        ∧ account.multisigIsReady = .ok true :=
  (Session.multisig_agreement_iff sampleSession_honest sampleSession_collisionFree
    sampleSession_delivers).mpr (by decide)

/-- Signer 0 reads the first message of signer 1 twice. It ends with another common key than the
others, and the round after the last fails for all. -/
theorem repeated_message_splits_signers :
    ((sampleSession [1]).accountAfter sampleSuite 2 0).map
        (fun account => (account.multisigPubkey, account.commonPubkey)) = .ok (25, 11)
      ∧ ((sampleSession [1]).accountAfter sampleSuite 2 1).map
        (fun account => (account.multisigPubkey, account.commonPubkey)) = .ok (25, 35)
      ∧ ((sampleSession [1]).accountAfter sampleSuite 3 0).map (fun _ => ())
        = .error "Multisig post-kex round: expected common pubkey wasn't found in input messages."
      ∧ ((sampleSession [1]).accountAfter sampleSuite 3 1).map (fun _ => ()) = .error
        "Multisig post-kex round messages from other signers did not all contain two pubkeys." := by
  decide +kernel

end Glaciem.Multisig
