import Glaciem.Lib.Subsets
import Glaciem.Lib.Window
import Glaciem.Multisig.Account

/-!
# Glaciem — what the functions of the key exchange return

One lemma for each function of the exchange: when its checks pass, and what it then returns. The
session between the signers uses these only.
-/

namespace Glaciem.Multisig

open List Nat

/-- The parameters that `check_multisig_config` and `set_multisig_config` accept. -/
structure ValidConfig (numSigners threshold : Nat) : Prop where
  two_le : 2 ≤ numSigners
  le_max : numSigners ≤ maxSigners
  pos : 1 ≤ threshold
  le : threshold ≤ numSigners

section

variable {threshold numSigners : Nat} (h : ValidConfig numSigners threshold)

include h

theorem multisigKexRoundsRequired_ok :
    multisigKexRoundsRequired numSigners threshold = .ok (numSigners - threshold + 1) := by
  rw [multisigKexRoundsRequired, check_pos h.le, check_pos h.pos]
  rfl

theorem multisigSetupRoundsRequired_ok :
    multisigSetupRoundsRequired numSigners threshold = .ok (numSigners - threshold + 1 + 1) := by
  rw [multisigSetupRoundsRequired, multisigKexRoundsRequired_ok h]
  rfl

theorem checkMultisigConfig_ok {round : Nat} (hround : 1 ≤ round)
    (hlast : round ≤ numSigners - threshold + 1 + 1) :
    checkMultisigConfig round threshold numSigners = .ok () := by
  rw [checkMultisigConfig, check_pos (p := 1 < numSigners) h.two_le, check_pos h.le_max,
    check_pos h.le, check_pos (p := 0 < threshold) h.pos, check_pos (p := 0 < round) hround,
    multisigSetupRoundsRequired_ok h]
  exact check_pos hlast

end

/-! ## Reading messages -/

section

variable {F G : Type}

variable {round : Nat} {msgs : List (KexMsg F G)} {key origin : G}

/-- What `check_messages_round` accepts: there are messages, and all are of the round. -/
structure InRound (round : Nat) (msgs : List (KexMsg F G)) : Prop where
  ne_nil : msgs ≠ []
  kexRound : ∀ msg ∈ msgs, msg.kexRound = round

theorem checkMessagesRound_ok (h : InRound round msgs) :
    checkMessagesRound msgs round = .ok () := by
  cases msgs with
  | nil => exact absurd rfl h.ne_nil
  | cons msg rest =>
    have hhead := h.kexRound msg mem_cons_self
    rw [checkMessagesRound, check_pos hhead]
    exact check_pos fun other hother => (h.kexRound other hother).trans hhead.symm

variable [DecidableEq G]

theorem multisigKexMsgsSanitizePubkeys_ok (h : InRound round msgs) (exclude : List G) :
    multisigKexMsgsSanitizePubkeys msgs exclude
      = .ok (round, msgs.foldl (sanitizeMsg round exclude) KeyIndex.empty) := by
  cases msgs with
  | nil => exact absurd rfl h.ne_nil
  | cons msg rest =>
    obtain rfl := h.kexRound msg mem_cons_self
    rw [multisigKexMsgsSanitizePubkeys, checkMessagesRound_ok h]
    rfl

/-- The keys that a message recommends: in the first round the signer's own. -/
def KexMsg.recommended (msg : KexMsg F G) (round : Nat) (exclude : List G) : List G :=
  if round = 1 then [msg.signingPubkey] else msg.msgPubkeys.filter (· ∉ exclude)

theorem mem_owners_sanitizeMsg {exclude : List G} {sanitized : KeysetMap G} {msg : KexMsg F G} :
    origin ∈ (sanitizeMsg round exclude sanitized msg).owners key
      ↔ origin ∈ sanitized.owners key
        ∨ msg.signingPubkey = origin ∧ key ∈ msg.recommended round exclude := by
  rw [sanitizeMsg, KexMsg.recommended]
  split
  · rw [KeyIndex.owners_insert, mem_singleton]
    split
    · next hkey => rw [Finset.mem_insert, hkey, eq_comm]; tauto
    · next hkey => tauto
  · rw [KeyIndex.mem_owners_insertAll, eq_comm]

theorem mem_owners_sanitized {exclude : List G} :
    origin ∈ (msgs.foldl (sanitizeMsg round exclude) KeyIndex.empty).owners key
      ↔ ∃ msg ∈ msgs, msg.signingPubkey = origin ∧ key ∈ msg.recommended round exclude := by
  -- over any map to start with
  have hfold : ∀ (msgs : List (KexMsg F G)) (sanitized : KeysetMap G),
      origin ∈ (msgs.foldl (sanitizeMsg round exclude) sanitized).owners key
        ↔ origin ∈ sanitized.owners key
          ∨ ∃ msg ∈ msgs, msg.signingPubkey = origin ∧ key ∈ msg.recommended round exclude := by
    intro msgs
    induction msgs with
    | nil => simp
    | cons msg msgs ih =>
      intro sanitized
      rw [foldl_cons, ih, mem_owners_sanitizeMsg]
      simp only [mem_cons, exists_eq_or_imp]
      tauto
  rw [hfold, KeyIndex.owners_empty]
  simp

theorem mem_owners_removeKeyFromMappedSets {base : G} {keyset : KeysetMap G} :
    origin ∈ (removeKeyFromMappedSets base keyset).owners key
      ↔ origin ∈ keyset.owners key ∧ origin ≠ base := by
  rw [removeKeyFromMappedSets, KeyIndex.mem_owners_eraseAll]
  refine and_congr_right fun horigin => not_congr ?_
  exact and_iff_left (KeyIndex.mem_keys.mpr ⟨origin, horigin⟩)

end

/-- Among at most sixteen signers the floating-point coefficient rounds to the binomial one. -/
theorem nChooseK_eq {F G : Type} (S : Suite F G) {n k : Nat} (hn : n < maxSigners) :
    nChooseK S n k = n.choose k := by
  rw [nChooseK]
  split
  · next hlt => exact (choose_eq_zero_of_lt hlt).symm
  · next hle =>
    have hnear := abs_lt.mp (S.binomialCoefficient_near n k (by omega) hn)
    have hone : (1 : ℚ) ≤ n.choose k := by exact_mod_cast choose_pos (by omega)
    have hlarge : (n.choose k : ℚ) ≤ 2 ^ 15 := by
      have h := (choose_le_two_pow n k).trans
        (Nat.pow_le_pow_right two_pos (Nat.le_of_lt_succ hn))
      exact_mod_cast h
    rw [if_neg (by linarith), if_neg (by linarith)]
    have hround : round (S.binomialCoefficient n k) = (n.choose k : ℤ) := by
      rw [round_eq, Int.floor_eq_iff]
      push_cast
      constructor <;> linarith
    rw [hround, Int.toNat_natCast]

section

variable {F G : Type} [Field F] [AddCommGroup G] [Module F G] [DecidableEq F] [DecidableEq G]
  (S : Suite F G)

variable {privkey : F} {round : Nat} {basePubkey key : G} {msgs : List (KexMsg F G)}
  {exclude signers keys merged : List G} {incomplete : Bool} {privkeys : List F}

theorem KexMsg.construct_first {commonPrivkey : F} (hkey : privkey ≠ 0)
    (hcommon : commonPrivkey ≠ 0) (pubkeys : List G) :
    KexMsg.construct S 1 privkey pubkeys commonPrivkey
      = .ok ⟨1, [], commonPrivkey, privkey • S.base⟩ := by
  rw [KexMsg.construct, check_pos one_pos, check_pos hkey, if_pos rfl, check_pos hcommon]
  rfl

theorem KexMsg.construct_later {pubkeys : List G} (hround : 1 < round) (hkey : privkey ≠ 0)
    (hpubkeys : ∀ pubkey ∈ pubkeys, pubkey ≠ 0) :
    KexMsg.construct S round privkey pubkeys 0 = .ok ⟨round, pubkeys, 0, privkey • S.base⟩ := by
  rw [KexMsg.construct, check_pos (by omega : 0 < round), check_pos hkey,
    if_neg (by omega : ¬ round = 1), check_pos hpubkeys]
  rfl

omit [Field F] [Module F G] [DecidableEq F] in
theorem KexMsg.parseAndValidate_ok {msg : KexMsg F G}
    (hpubkeys : ∀ pubkey ∈ msg.msgPubkeys, pubkey ≠ 0)
    (hsigner : msg.signingPubkey ≠ 0) : msg.parseAndValidate = .ok msg := by
  rw [KexMsg.parseAndValidate, check_pos hpubkeys, check_pos hsigner]
  rfl

/-! ## Evaluating a round -/

section

omit [Field F] [AddCommGroup G] [Module F G] [DecidableEq F]

/-- The recommended keys with the other signers that recommend them. -/
def collectedKeys (basePubkey : G) (round : Nat) (msgs : List (KexMsg F G)) (exclude : List G) :
    KeysetMap G :=
  removeKeyFromMappedSets basePubkey (msgs.foldl (sanitizeMsg round exclude) KeyIndex.empty)

theorem mem_owners_collectedKeys {origin : G} :
    origin ∈ (collectedKeys basePubkey round msgs exclude).owners key
      ↔ (∃ msg ∈ msgs, msg.signingPubkey = origin ∧ key ∈ msg.recommended round exclude)
        ∧ origin ≠ basePubkey := by
  rw [collectedKeys, mem_owners_removeKeyFromMappedSets, mem_owners_sanitized]

/-- The counts that `evaluate_multisig_kex_round_msgs` checks, over the collected keys. -/
structure Complete (signers exclude : List G) (round : Nat) (incomplete : Bool)
    (collected : KeysetMap G) : Prop where
  self : exclude.length = (signers.length - 1).choose (round - 1)
  recommended : ∀ key ∈ collected.keys,
    (if incomplete then 1 else round) ≤ (collected.owners key).card
  enough : (if incomplete then signers.length - 1 - (round - 1) else signers.length - 1)
    ≤ collected.allOwners.card
  others : ∀ origin ∈ collected.allOwners,
    (collected.keysOf origin).card = (signers.length - 2).choose (round - 1)
  known : ∀ origin ∈ collected.allOwners, origin ∈ signers

theorem evaluateMultisigKexRoundMsgs_ok (hexclude : exclude.Nodup) (hmsgs : InRound round msgs)
    (hpos : 1 ≤ round) (hlt : round < signers.length) (hmax : signers.length ≤ maxSigners)
    (hall : Complete signers exclude round incomplete
      (collectedKeys basePubkey round msgs exclude)) :
    evaluateMultisigKexRoundMsgs S basePubkey round signers msgs exclude incomplete
      = .ok (collectedKeys basePubkey round msgs exclude) := by
  have hchoose : ∀ n, n < signers.length → nChooseK S n (round - 1) = n.choose (round - 1) :=
    fun n hn => nChooseK_eq S (by omega)
  have hself := hall.self
  have hothers := hall.others
  have hpositive : 0 < (signers.length - 1).choose (round - 1)
      ∧ 0 < (signers.length - 2).choose (round - 1) :=
    ⟨choose_pos (by omega), choose_pos (by omega)⟩
  rw [← hchoose _ (by omega)] at hself hothers
  rw [← hchoose _ (by omega), ← hchoose _ (by omega)] at hpositive
  rw [evaluateMultisigKexRoundMsgs]
  refine (check_bind hexclude _).trans ?_
  refine (ok_bind (multisigKexMsgsSanitizePubkeys_ok hmsgs exclude) _).trans ?_
  refine (check_bind rfl _).trans ?_
  refine (check_bind hall.recommended _).trans ?_
  refine (check_bind hall.enough _).trans ?_
  refine (check_bind hpositive _).trans ?_
  refine (check_bind hself _).trans ?_
  refine (check_bind hothers _).trans ?_
  exact check_bind hall.known _

theorem evaluateMultisigPostKexRoundMsgs_ok {pubkeyOrigins : KeysetMap G}
    (hmsgs : InRound round msgs)
    (horigins : msgs.foldl (sanitizeMsg round []) KeyIndex.empty = pubkeyOrigins)
    (hkeys : pubkeyOrigins.keys.length = 2) (hsame : sameOrigins pubkeyOrigins)
    (henough : (if incomplete then 1 else signers.length)
      ≤ (insert basePubkey pubkeyOrigins.allOwners).card)
    (hknown : ∀ origin ∈ insert basePubkey pubkeyOrigins.allOwners, origin ∈ signers) :
    evaluateMultisigPostKexRoundMsgs basePubkey round signers msgs incomplete
      = .ok pubkeyOrigins := by
  subst horigins
  rw [evaluateMultisigPostKexRoundMsgs]
  refine (ok_bind (multisigKexMsgsSanitizePubkeys_ok hmsgs []) _).trans ?_
  refine (check_bind rfl _).trans ?_
  refine (check_bind hkeys _).trans ?_
  refine (check_bind hsame _).trans ?_
  refine (check_bind henough _).trans ?_
  exact check_bind hknown _

end

section

omit [DecidableEq F]

/-- What the round evaluates: nothing in the last round of 1-of-N, the keys of the messages in the
other rounds of the exchange, and the results of the others in the round after it. -/
def evaluatedKeys (basePubkey : G) (round threshold : Nat) (signers : List G)
    (msgs : List (KexMsg F G)) (exclude : List G) (incomplete : Bool) :
    Except String (KeysetMap G) :=
  if threshold = 1 ∧ round = signers.length - threshold + 1 then pure KeyIndex.empty
  else if round ≤ signers.length - threshold + 1 then
    evaluateMultisigKexRoundMsgs S basePubkey round signers msgs exclude incomplete
  else evaluateMultisigPostKexRoundMsgs basePubkey round signers msgs incomplete

theorem multisigKexProcessRoundMsgs_ok (basePrivkey : F) {threshold : Nat} {evaluated : KeysetMap G}
    (h : ValidConfig signers.length threshold) (hround : 1 ≤ round)
    (hlast : round ≤ signers.length - threshold + 1 + 1)
    (heval : evaluatedKeys S basePubkey round threshold signers msgs exclude incomplete
      = .ok evaluated) :
    multisigKexProcessRoundMsgs S basePrivkey basePubkey round threshold signers msgs exclude
        incomplete
      = .ok (if round < signers.length - threshold + 1 then
          multisigKexMakeRoundKeys basePrivkey evaluated else evaluated) := by
  rw [multisigKexProcessRoundMsgs]
  refine (ok_bind (checkMultisigConfig_ok h hround hlast) _).trans ?_
  refine (ok_bind (multisigKexRoundsRequired_ok h) _).trans ?_
  unfold evaluatedKeys at heval
  split at heval
  · next hsole => rw [if_pos hsole, ok_bind heval]; rfl
  · next hsole =>
    rw [if_neg hsole]
    split at heval
    · next hmain => rw [if_pos hmain, ok_bind heval]; rfl
    · next hmain => rw [if_neg hmain, ok_bind heval]; rfl

theorem mem_keys_multisigKexMakeRoundKeys {basePrivkey : F} {pubkeyOrigins : KeysetMap G}
    {derivation : G} :
    derivation ∈ (multisigKexMakeRoundKeys basePrivkey pubkeyOrigins).keys
      ↔ ∃ pubkey ∈ pubkeyOrigins.keys, (8 : F) • basePrivkey • pubkey = derivation :=
  KeyIndex.mem_keys_mapKeys

end

/-! ## Aggregation -/

section

omit [Field F] [AddCommGroup G] [Module F G] [DecidableEq F] [DecidableEq G]

theorem sortKeys_perm (keys : List G) : (sortKeys S keys).Perm keys := perm_insertionSort _ _

theorem sortKeys_sorted (keys : List G) :
    (sortKeys S keys).Pairwise fun a b => S.publicBytes a ≤ S.publicBytes b :=
  pairwise_insertionSort _ _

end

omit [Field F] [AddCommGroup G] [Module F G] [DecidableEq F] in
theorem computeMultisigAggregationCoefficient_ok
    (hsorted : keys.Pairwise fun a b => S.publicBytes a ≤ S.publicBytes b) (hkey : key ∈ keys) :
    computeMultisigAggregationCoefficient S keys key = .ok (S.hashAggregation (key :: keys)) := by
  rw [computeMultisigAggregationCoefficient]
  refine (check_bind hsorted _).trans ?_
  exact check_bind hkey _

section

omit [DecidableEq F]

/-- The private keys when those of the merged keys have been changed. -/
def partlyAggregated (keys merged : List G) (privkeys : List F) : List F :=
  privkeys.map fun privkey =>
    if privkey • S.base ∈ merged then S.hashAggregation (privkey • S.base :: keys) * privkey
    else privkey

theorem partlyAggregated_concat_of_foreign (hkey : ∀ privkey ∈ privkeys, privkey • S.base ≠ key) :
    partlyAggregated S keys (merged ++ [key]) privkeys
      = partlyAggregated S keys merged privkeys := by
  refine map_congr_left fun privkey hprivkey => ?_
  simp [hkey privkey hprivkey]

theorem partlyAggregated_concat_of_own {i : Nat} (hnodup : (privkeys.map (· • S.base)).Nodup)
    (hi : privkeys[i]? = some privkey) :
    partlyAggregated S keys (merged ++ [privkey • S.base]) privkeys
      = (partlyAggregated S keys merged privkeys).set i
        (S.hashAggregation (privkey • S.base :: keys) * privkey) := by
  obtain ⟨hlt, hget⟩ := List.getElem?_eq_some_iff.mp hi
  refine List.ext_getElem (by simp [partlyAggregated]) fun j hj hj' => ?_
  simp only [partlyAggregated, List.length_map] at hj
  rw [getElem_set]
  split
  · next hij =>
    subst hij
    simp [partlyAggregated, hget]
  · next hij =>
    have hne : privkeys[j] • S.base ≠ privkey • S.base := by
      intro heq
      rw [← hget] at heq
      have hsame := inj_on_of_nodup_map hnodup (getElem_mem hj) (getElem_mem hlt) heq
      exact hij ((Nodup.getElem_inj_iff (Nodup.of_map _ hnodup)).mp hsame.symm)
    simp [partlyAggregated, hne]

end

section

variable {own : Dict G Nat} (hsorted : keys.Pairwise fun a b => S.publicBytes a ≤ S.publicBytes b)
  (hcoeff : ∀ key ∈ keys, S.hashAggregation (key :: keys) ≠ 0)
  (hprivkeys : ∀ privkey ∈ privkeys, privkey ≠ 0) (hnodup : (privkeys.map (· • S.base)).Nodup)
  (hown : ∀ key i, own.get? key = some i ↔ (privkeys.map (· • S.base))[i]? = some key)

include hsorted hcoeff hprivkeys hnodup hown

theorem mergeKey_ok {aggregate : G} (hkey : key ∈ keys) (hnew : key ∉ merged) :
    mergeKey S keys own (aggregate, partlyAggregated S keys merged privkeys) key
      = .ok (aggregate + S.hashAggregation (key :: keys) • key,
          partlyAggregated S keys (merged ++ [key]) privkeys) := by
  rw [mergeKey]
  refine (ok_bind (computeMultisigAggregationCoefficient_ok S hsorted hkey) _).trans ?_
  cases hget : own.get? key with
  | none =>
    have hforeign : ∀ privkey ∈ privkeys, privkey • S.base ≠ key := by
      rintro privkey hmem rfl
      obtain ⟨i, hi⟩ := mem_iff_getElem?.mp hmem
      have := (hown (privkey • S.base) i).mpr (by rw [getElem?_map, hi]; rfl)
      rw [hget] at this
      cases this
    rw [partlyAggregated_concat_of_foreign S hforeign]
    rfl
  | some i =>
    have hi := (hown key i).mp hget
    rw [getElem?_map, Option.map_eq_some_iff] at hi
    obtain ⟨privkey, hi, rfl⟩ := hi
    have hstate : (partlyAggregated S keys merged privkeys).getD i 0 = privkey := by
      rw [getD_eq_getElem?_getD, partlyAggregated, getElem?_map, hi]
      simp [hnew]
    have hshare : S.hashAggregation (privkey • S.base :: keys)
        * (partlyAggregated S keys merged privkeys).getD i 0 ≠ 0 := by
      rw [hstate]
      exact mul_ne_zero (hcoeff _ hkey) (hprivkeys _ (mem_of_getElem? hi))
    refine (check_bind hshare _).trans ?_
    rw [partlyAggregated_concat_of_own S hnodup hi, hstate]
    rfl

theorem foldlM_mergeKey_ok (rest : List G) (hrest : rest ⊆ keys) :
    ∀ (merged : List G) (aggregate : G), (merged ++ rest).Nodup →
      rest.foldlM (mergeKey S keys own) (aggregate, partlyAggregated S keys merged privkeys)
        = .ok (aggregate + (rest.map fun key => S.hashAggregation (key :: keys) • key).sum,
            partlyAggregated S keys (merged ++ rest) privkeys) := by
  induction rest with
  | nil =>
    intro merged aggregate _
    simp [pure, Except.pure]
  | cons key rest ih =>
    intro merged aggregate hall
    obtain ⟨hkey, hrest⟩ := cons_subset.mp hrest
    have hnew : key ∉ merged := fun h =>
      (disjoint_of_nodup_append hall) h mem_cons_self
    rw [foldlM_cons, ok_bind (mergeKey_ok S hsorted hcoeff hprivkeys hnodup hown hkey hnew),
      ih hrest (merged ++ [key]) _ (by rwa [append_assoc]), map_cons, sum_cons,
      add_assoc, append_assoc]
    rfl

end

omit [Field F] [AddCommGroup G] [Module F G] [DecidableEq F] [DecidableEq G] in
theorem isChain_sortKeys (hnodup : keys.Nodup) : (sortKeys S keys).IsChain (· ≠ ·) :=
  Pairwise.isChain ((sortKeys_perm S keys).nodup_iff.mpr hnodup)

theorem generateMultisigAggregateKey_ok {finalKeys : List G}
    (hnodup : (finalKeys ++ privkeys.map (· • S.base)).Nodup)
    (hkeys : sortKeys S (finalKeys ++ privkeys.map (· • S.base)) = keys)
    (hprivkeys : ∀ privkey ∈ privkeys, privkey ≠ 0)
    (hcoeff : ∀ key ∈ keys, S.hashAggregation (key :: keys) ≠ 0) :
    generateMultisigAggregateKey S finalKeys privkeys
      = .ok ((keys.map fun key => S.hashAggregation (key :: keys) • key).sum,
          privkeys.map fun privkey => S.hashAggregation (privkey • S.base :: keys) * privkey) := by
  subst hkeys
  have hpubkeys : (privkeys.map (· • S.base)).Nodup := (nodup_append.mp hnodup).2.1
  have hown : ∀ key i, ((privkeys.map (· • S.base)).zipIdx.foldl
      (fun mapping key => mapping.set key.1 key.2) Dict.empty).get? key = some i
        ↔ (privkeys.map (· • S.base))[i]? = some key := by
    intro key i
    rw [Dict.get?_foldl_set (by rwa [zipIdx_map_fst]), mem_zipIdx_iff_getElem?, or_iff_left]
    rintro ⟨-, hnone⟩
    cases hnone
  have hmem : ∀ privkey ∈ privkeys,
      privkey • S.base ∈ sortKeys S (finalKeys ++ privkeys.map (· • S.base)) := fun privkey h =>
    (sortKeys_perm S _).mem_iff.mpr (mem_append_right _ (mem_map_of_mem h))
  -- before the loop no key has been merged, after it all have
  have hbefore : partlyAggregated S (sortKeys S (finalKeys ++ privkeys.map (· • S.base))) []
      privkeys = privkeys := by
    simp [partlyAggregated]
  have hloop := foldlM_mergeKey_ok S (sortKeys_sorted S _) hcoeff hprivkeys hpubkeys hown
    _ (Subset.refl _) [] 0 ((sortKeys_perm S _).nodup_iff.mpr hnodup)
  rw [hbefore, zero_add, nil_append] at hloop
  rw [generateMultisigAggregateKey]
  refine (check_bind (isChain_sortKeys S hnodup) _).trans (hloop.trans ?_)
  congr 2
  exact map_congr_left fun privkey h => if_pos (hmem privkey h)

/-! ## The account -/

namespace Account

variable {account : Account F G}

omit [Field F] [Module F G] [DecidableEq F] in
theorem setMultisigConfig_ok {threshold : Nat} {signers : List G}
    (h : ValidConfig signers.length threshold) (hsigners : ∀ signer ∈ signers, signer ≠ 0)
    (hown : account.basePubkey ∈ signers) (hnodup : signers.Nodup) :
    account.setMultisigConfig S threshold signers
      = .ok { account with threshold := threshold, signers := sortKeys S signers } := by
  rw [setMultisigConfig]
  refine (check_bind ⟨h.pos, h.le⟩ _).trans ?_
  refine (check_bind ⟨h.two_le, h.le_max⟩ _).trans ?_
  refine (check_bind hsigners _).trans ?_
  refine (check_bind hown _).trans ?_
  exact check_bind (isChain_sortKeys S hnodup) _

omit [Field F] [AddCommGroup G] [Module F G] [DecidableEq F] in
theorem multisigIsReady_ok (h : ValidConfig account.signers.length account.threshold)
    (hactive : 0 < account.kexRoundsComplete) :
    account.multisigIsReady = .ok (decide
      (account.signers.length - account.threshold + 1 + 1 ≤ account.kexRoundsComplete)) := by
  have hmain : account.mainKexRoundsDone = .ok (decide
      (account.signers.length - account.threshold + 1 ≤ account.kexRoundsComplete)) := by
    rw [mainKexRoundsDone, accountIsActive, if_pos (decide_eq_true hactive)]
    exact ok_bind (multisigKexRoundsRequired_ok h) _
  rw [multisigIsReady]
  refine (ok_bind hmain _).trans ?_
  split
  · exact ok_bind (multisigSetupRoundsRequired_ok h) _
  · next hnot =>
    rw [decide_eq_true_eq] at hnot
    rw [decide_eq_false (by omega)]
    rfl

/-- The account after `initialize_kex_update` in the first round. -/
def withCommonPrivkey (account : Account F G) (commonPrivkey : F) (kexRoundsRequired : Nat) :
    Account F G :=
  { account with
    commonPrivkey := commonPrivkey
    commonPubkey := commonPrivkey • S.base
    multisigPrivkeys :=
      if kexRoundsRequired = 1 then [account.basePrivkey] else account.multisigPrivkeys }

variable {msgs : List (KexMsg F G)} {kexRoundsRequired : Nat}

theorem initializeKexUpdate_first {commonPrivkey : F} (hrounds : account.kexRoundsComplete = 0)
    (hmake : makeMultisigCommonPrivkey S (account.participantBaseCommonPrivkeys msgs)
      = .ok commonPrivkey) :
    account.initializeKexUpdate S msgs kexRoundsRequired
      = .ok (account.withCommonPrivkey S commonPrivkey kexRoundsRequired) := by
  rw [initializeKexUpdate, if_neg (by omega)]
  exact ok_bind hmake _

theorem initializeKexUpdate_later (hrounds : 0 < account.kexRoundsComplete) :
    account.initializeKexUpdate S msgs kexRoundsRequired = .ok account :=
  if_pos hrounds

section

variable (h : ValidConfig account.signers.length account.threshold)
  (hlast : account.kexRoundsComplete ≤ account.signers.length - account.threshold + 1)

include h hlast

theorem kexUpdateImpl_ok {account' account'' : Account F G} {incomplete : Bool}
    {result : KeysetMap G} (hmsgs : InRound (account.kexRoundsComplete + 1) msgs)
    (hinit : account.initializeKexUpdate S msgs (account.signers.length - account.threshold + 1)
      = .ok account')
    (hresult : multisigKexProcessRoundMsgs S account'.basePrivkey account'.basePubkey
      (account'.kexRoundsComplete + 1) account'.threshold account'.signers msgs
      account'.getKexExcludePubkeys incomplete = .ok result)
    (hfinal : account'.finalizeKexUpdate S (account.signers.length - account.threshold + 1) result
      = .ok account'') :
    account.kexUpdateImpl S msgs incomplete = .ok account'' := by
  rw [kexUpdateImpl]
  refine (ok_bind (checkMessagesRound_ok hmsgs) _).trans ?_
  refine (ok_bind (multisigKexRoundsRequired_ok h) _).trans ?_
  refine (check_bind (succ_pos _) _).trans ?_
  refine (check_bind (lt_succ_of_le hlast) _).trans ?_
  refine (ok_bind hinit _).trans ?_
  exact (ok_bind hresult _).trans hfinal

theorem kexUpdate_eq (hactive : 0 < account.kexRoundsComplete) (msgs : List (KexMsg F G))
    (forceUpdate : Bool) :
    account.kexUpdate S msgs forceUpdate = account.kexUpdateImpl S msgs forceUpdate := by
  rw [kexUpdate]
  refine (check_bind (decide_eq_true hactive) _).trans ?_
  refine (ok_bind (multisigIsReady_ok h hactive) _).trans ?_
  exact check_bind (decide_eq_false (by omega)) _

end

theorem finalizeKexUpdate_ok {account' : Account F G} {result : KeysetMap G} {keys : List G}
    (hkeys : account.finalizeKeys S kexRoundsRequired result = .ok (keys, account'))
    (hrounds : 1 ≤ kexRoundsRequired) (hbase : account'.basePrivkey ≠ 0)
    (hne : ∀ key ∈ keys, key ≠ 0) :
    account.finalizeKexUpdate S kexRoundsRequired result
      = .ok { account' with
          kexRoundsComplete := account'.kexRoundsComplete + 1
          nextRoundKexMessage :=
            ⟨min kexRoundsRequired (account'.kexRoundsComplete + 1) + 1, keys, 0,
            account'.basePrivkey • S.base⟩ } := by
  have hround : (if account'.kexRoundsComplete + 1 > kexRoundsRequired then kexRoundsRequired
      else account'.kexRoundsComplete + 1)
        = min kexRoundsRequired (account'.kexRoundsComplete + 1) := by
    split <;> omega
  rw [finalizeKexUpdate]
  refine (ok_bind hkeys _).trans ?_
  dsimp only
  rw [hround]
  exact ok_bind (KexMsg.construct_later S (by omega) hbase hne) _

end Account

end

end Glaciem.Multisig
