import Mathlib.Algebra.Field.ZMod
import Mathlib.Algebra.Order.Round
import Mathlib.Data.List.Sort
import Mathlib.Data.Rat.Floor
import Glaciem.Lib.KeyIndex

/-!
# Glaciem — the key exchange of a multisig account

An M-of-N account is set up in rounds (`multisig_account.cpp`, `multisig_account_kex_impl.cpp`,
`multisig_kex_msg.cpp`). In a round each signer sends one message, reads those of the others and
makes its message for the next round. Before round `r` every group of `r` signers shares a key, and
the message of a signer names the keys of its groups; from the keys of the groups it is not in a
signer makes those of the groups of `r + 1` signers it is in, by a Diffie-Hellman step. After `N - M
+ 1` rounds the keys of all groups are merged into the public key of the account, and one more round
compares the results.

Scalars are a field and points a module over it; a point of the model is in the prime-order
subgroup. The iteration order of an unordered map is the order in which its keys were first set. An
exception is an error with the source's text.
-/

namespace Glaciem.Multisig

def maxSigners : Nat := 16

structure Suite (F G : Type) where
  /-- The generator. -/
  base : G
  /-- The 32 bytes of a point and of a scalar, in the order `memcmp` compares them. -/
  publicBytes : G → Nat
  secretBytes : F → Nat
  publicBytes_injective : Function.Injective publicBytes
  secretBytes_injective : Function.Injective secretBytes
  /-- The hashes to scalars, with `HASH_KEY_MULTISIG` and `HASH_KEY_MULTISIG_KEY_AGGREGATION`. -/
  hashCommon : List F → F
  hashDerivation : G → F
  hashAggregation : List G → F
  binomialCoefficient : Nat → Nat → ℚ
  binomialCoefficient_near : ∀ n k, k ≤ n → n < maxSigners →
    |binomialCoefficient n k - (n.choose k : ℚ)| < 1 / 2

def check (p : Prop) [Decidable p] (message : String) : Except String Unit :=
  if p then pure () else throw message

theorem check_pos {p : Prop} [Decidable p] {message : String} (hp : p) : check p message = .ok () :=
  if_pos hp

theorem check_bind {p : Prop} [Decidable p] {message : String} (hp : p) {α : Type}
    (f : Unit → Except String α) : (check p message >>= f) = f () := by
  rw [check_pos hp]
  rfl

theorem ok_bind {α β : Type} {x : Except String α} {a : α} (hx : x = .ok a)
    (f : α → Except String β) : (x >>= f) = f a := by
  rw [hx]
  rfl

def multisigKexRoundsRequired (numSigners threshold : Nat) : Except String Nat := do
  check (threshold ≤ numSigners) "num_signers must be >= threshold"
  check (1 ≤ threshold) "threshold must be >= 1"
  return numSigners - threshold + 1

def multisigSetupRoundsRequired (numSigners threshold : Nat) : Except String Nat := do
  return (← multisigKexRoundsRequired numSigners threshold) + 1

def checkMultisigConfig (round threshold numSigners : Nat) : Except String Unit := do
  check (1 < numSigners) "Must be at least one other multisig signer."
  check (numSigners ≤ maxSigners)
    ("Too many multisig signers specified (limit = 16 to prevent dangerous combinatorial "
      ++ "explosion during key exchange).")
  check (threshold ≤ numSigners) "Multisig threshold may not be larger than number of signers."
  check (0 < threshold) "Multisig threshold must be > 0."
  check (0 < round) "Multisig kex round must be > 0."
  check (round ≤ (← multisigSetupRoundsRequired numSigners threshold))
    "Trying to process multisig kex for an invalid round."

section

variable {F G : Type} [Field F] [AddCommGroup G] [Module F G] [DecidableEq F] [DecidableEq G]
  (S : Suite F G)

/-- `multisig_kex_msg`. The signature is left out: an honest message has a valid one. -/
structure KexMsg (F G : Type) where
  kexRound : Nat
  msgPubkeys : List G
  msgPrivkey : F
  signingPubkey : G
  deriving DecidableEq

def KexMsg.construct (round : Nat) (signingPrivkey : F) (msgPubkeys : List G) (msgPrivkey : F) :
    Except String (KexMsg F G) := do
  check (0 < round) "Kex round must be > 0."
  check (signingPrivkey ≠ 0) "Invalid msg signing key."
  if round = 1 then
    check (msgPrivkey ≠ 0) "Invalid msg privkey."
    return ⟨round, [], msgPrivkey, signingPrivkey • S.base⟩
  else
    check (∀ pubkey ∈ msgPubkeys, pubkey ≠ 0) "Pubkey for message was invalid."
    return ⟨round, msgPubkeys, 0, signingPrivkey • S.base⟩

def KexMsg.parseAndValidate (msg : KexMsg F G) : Except String (KexMsg F G) := do
  check (∀ pubkey ∈ msg.msgPubkeys, pubkey ≠ 0) "Pubkey from message was invalid."
  check (msg.signingPubkey ≠ 0) "Message signing key was invalid."
  return msg

/-! ## Keys -/

def makeMultisigCommonPrivkey (participantBaseCommonPrivkeys : List F) : Except String F := do
  let commonPrivkey := S.hashCommon
    (participantBaseCommonPrivkeys.insertionSort fun a b => S.secretBytes a ≤ S.secretBytes b)
  check (commonPrivkey ≠ 0) "Unexpected null secret key (danger!)."
  return commonPrivkey

def sortKeys (keys : List G) : List G :=
  keys.insertionSort fun a b => S.publicBytes a ≤ S.publicBytes b

def computeMultisigAggregationCoefficient (sortedKeys : List G) (aggregationKey : G) :
    Except String F := do
  check (sortedKeys.Pairwise fun a b => S.publicBytes a ≤ S.publicBytes b)
    "Keys for aggregation coefficient aren't sorted."
  check (aggregationKey ∈ sortedKeys) "Aggregation key expected to be in input keyset."
  return S.hashAggregation (aggregationKey :: sortedKeys)

/-- One key is merged, and the private key to it changed where the account has it. -/
def mergeKey (finalKeys : List G) (ownKeysMapping : Dict G Nat) (state : G × List F) (key : G) :
    Except String (G × List F) := do
  let coeff ← computeMultisigAggregationCoefficient S finalKeys key
  let privkeys ← match ownKeysMapping.get? key with
    | none => pure state.2
    | some index => do
      let privkey := coeff * state.2.getD index 0
      check (privkey ≠ 0) "Multisig privkey with aggregation coefficient unexpectedly null."
      pure (state.2.set index privkey)
  return (state.1 + coeff • key, privkeys)

def generateMultisigAggregateKey (finalKeys : List G) (privkeys : List F) :
    Except String (G × List F) := do
  let pubkeys := privkeys.map (· • S.base)
  let ownKeysMapping : Dict G Nat :=
    pubkeys.zipIdx.foldl (fun mapping key => mapping.set key.1 key.2) Dict.empty
  let finalKeys := sortKeys S (finalKeys ++ pubkeys)
  check (finalKeys.IsChain (· ≠ ·)) "Unexpected duplicate found in input list."
  finalKeys.foldlM (mergeKey S finalKeys ownKeysMapping) (0, privkeys)

/-- `multisig_keyset_map_memsafe_t`: keys, with the signers that recommended or share each. -/
abbrev KeysetMap (G : Type) [DecidableEq G] : Type := KeyIndex G G

def multisigKexMakeRoundKeys (basePrivkey : F) (pubkeyOrigins : KeysetMap G) : KeysetMap G :=
  pubkeyOrigins.mapKeys fun pubkey => (8 : F) • basePrivkey • pubkey

/-! ## Reading the messages of a round -/

def checkMessagesRound (msgs : List (KexMsg F G)) (expectedRound : Nat) : Except String Unit :=
  match msgs with
  | [] => throw "At least one input message expected."
  | msg :: _ => do
    check (msg.kexRound = expectedRound) "Messages don't have the expected kex round number."
    check (∀ other ∈ msgs, other.kexRound = msg.kexRound)
      "All messages must have the same kex round number."

def sanitizeMsg (round : Nat) (excludePubkeys : List G) (sanitized : KeysetMap G)
    (msg : KexMsg F G) : KeysetMap G :=
  if round = 1 then sanitized.insert msg.signingPubkey msg.signingPubkey
  else sanitized.insertAll (msg.msgPubkeys.filter (· ∉ excludePubkeys)) msg.signingPubkey

def multisigKexMsgsSanitizePubkeys (msgs : List (KexMsg F G)) (excludePubkeys : List G) :
    Except String (Nat × KeysetMap G) :=
  match msgs with
  | [] => throw "At least one input message expected."
  | msg :: _ => do
    checkMessagesRound msgs msg.kexRound
    return (msg.kexRound, msgs.foldl (sanitizeMsg msg.kexRound excludePubkeys) KeyIndex.empty)

def removeKeyFromMappedSets (key : G) (keyset : KeysetMap G) : KeysetMap G :=
  keyset.eraseAll keyset.keys key

def nChooseK (n k : Nat) : Nat :=
  if n < k then 0
  else if S.binomialCoefficient n k < 0 then 0
  else if S.binomialCoefficient n k > 2 ^ 31 - 1 then 0
  else (round (S.binomialCoefficient n k)).toNat

/-- `evaluate_multisig_kex_round_msgs`. The map from origins to their keys is read off the other
one. -/
def evaluateMultisigKexRoundMsgs (basePubkey : G) (expectedRound : Nat) (signers : List G)
    (msgs : List (KexMsg F G)) (excludePubkeys : List G) (incompleteSignerSet : Bool) :
    Except String (KeysetMap G) := do
  check excludePubkeys.Nodup "Found duplicate pubkeys for exclusion unexpectedly."
  let (round, sanitized) ← multisigKexMsgsSanitizePubkeys msgs excludePubkeys
  check (round = expectedRound) ("Kex messages were for round [" ++ toString round
    ++ "], but expected round is [" ++ toString expectedRound ++ "]")
  let pubkeyOrigins := removeKeyFromMappedSets basePubkey sanitized
  let numRecommendationsRequired := if incompleteSignerSet then 1 else round
  check (∀ pubkey ∈ pubkeyOrigins.keys,
      numRecommendationsRequired ≤ (pubkeyOrigins.owners pubkey).card)
    "A pubkey recommended by multisig kex messages had an unexpected number of recommendations."
  let numSignersRequired :=
    if incompleteSignerSet then signers.length - 1 - (round - 1) else signers.length - 1
  check (numSignersRequired ≤ pubkeyOrigins.allOwners.card)
    ("Number of unique other signers recommending pubkeys does not equal number of required other "
      ++ "signers (kex round: " ++ toString round ++ ", num signers found: "
      ++ toString pubkeyOrigins.allOwners.card ++ ", num signers required: "
      ++ toString numSignersRequired ++ ").")
  let expectedRecommendationsOthers := nChooseK S (signers.length - 2) (round - 1)
  let expectedRecommendationsSelf := nChooseK S (signers.length - 1) (round - 1)
  check (0 < expectedRecommendationsSelf ∧ 0 < expectedRecommendationsOthers)
    "Bad num signers or round num (possibly numerical limits exceeded)."
  check (excludePubkeys.length = expectedRecommendationsSelf)
    "Local account did not recommend expected number of multisig keys."
  check (∀ origin ∈ pubkeyOrigins.allOwners,
      (pubkeyOrigins.keysOf origin).card = expectedRecommendationsOthers)
    "A multisig signer recommended an unexpected number of pubkeys."
  check (∀ origin ∈ pubkeyOrigins.allOwners, origin ∈ signers)
    "Multisig kex message with unexpected signer encountered."
  return pubkeyOrigins

def sameOrigins (pubkeyOrigins : KeysetMap G) : Prop :=
  ∀ a ∈ pubkeyOrigins.keys, ∀ b ∈ pubkeyOrigins.keys,
    pubkeyOrigins.owners a = pubkeyOrigins.owners b

instance (pubkeyOrigins : KeysetMap G) : Decidable (sameOrigins pubkeyOrigins) := by
  unfold sameOrigins
  infer_instance

def evaluateMultisigPostKexRoundMsgs (basePubkey : G) (expectedRound : Nat) (signers : List G)
    (msgs : List (KexMsg F G)) (incompleteSignerSet : Bool) : Except String (KeysetMap G) := do
  let (round, pubkeyOrigins) ← multisigKexMsgsSanitizePubkeys msgs []
  check (round = expectedRound) ("Kex messages were for round [" ++ toString round
    ++ "], but expected round is [" ++ toString expectedRound ++ "]")
  check (pubkeyOrigins.keys.length = 2)
    "Multisig post-kex round messages from other signers did not all contain two pubkeys."
  check (sameOrigins pubkeyOrigins)
    ("Multisig post-kex round messages from other signers did not all recommend the same "
      ++ "pubkey pair.")
  -- the origins of the first key, which are those of both
  let origins := insert basePubkey pubkeyOrigins.allOwners
  let numSignersRequired := if incompleteSignerSet then 1 else signers.length
  check (numSignersRequired ≤ origins.card)
    ("Multisig post-kex round message origins don't line up with multisig signer set "
      ++ "(num signers found: " ++ toString origins.card ++ ", num signers required: "
      ++ toString numSignersRequired ++ ").")
  check (∀ origin ∈ origins, origin ∈ signers)
    "An unknown origin recommended a multisig post-kex verification message."
  return pubkeyOrigins

def multisigKexProcessRoundMsgs (basePrivkey : F) (basePubkey : G) (currentRound threshold : Nat)
    (signers : List G) (msgs : List (KexMsg F G)) (excludePubkeys : List G)
    (incompleteSignerSet : Bool) : Except String (KeysetMap G) := do
  checkMultisigConfig currentRound threshold signers.length
  let kexRoundsRequired ← multisigKexRoundsRequired signers.length threshold
  let evaluatedPubkeys ←
    -- in the last round of 1-of-N all signers share the key: nothing to evaluate
    if threshold = 1 ∧ currentRound = kexRoundsRequired then pure KeyIndex.empty
    else if currentRound ≤ kexRoundsRequired then
      evaluateMultisigKexRoundMsgs S basePubkey currentRound signers msgs excludePubkeys
        incompleteSignerSet
    else evaluateMultisigPostKexRoundMsgs basePubkey currentRound signers msgs incompleteSignerSet
  return if currentRound < kexRoundsRequired then
      multisigKexMakeRoundKeys basePrivkey evaluatedPubkeys
    else evaluatedPubkeys

/-! ## The account -/

/-- `multisig_account`. The next message is kept as its contents. -/
structure Account (F G : Type) [DecidableEq G] where
  threshold : Nat
  signers : List G
  basePrivkey : F
  basePubkey : G
  baseCommonPrivkey : F
  multisigPrivkeys : List F
  commonPrivkey : F
  multisigPubkey : G
  commonPubkey : G
  kexRoundsComplete : Nat
  kexKeysToOrigins : KeysetMap G
  nextRoundKexMessage : KexMsg F G

namespace Account

def new (basePrivkey baseCommonPrivkey : F) : Except String (Account F G) := do
  return {
    threshold := 0
    signers := []
    basePrivkey := basePrivkey
    basePubkey := basePrivkey • S.base
    baseCommonPrivkey := baseCommonPrivkey
    multisigPrivkeys := []
    commonPrivkey := 0
    multisigPubkey := 0
    commonPubkey := 0
    kexRoundsComplete := 0
    kexKeysToOrigins := KeyIndex.empty
    nextRoundKexMessage := ← KexMsg.construct S 1 basePrivkey [] baseCommonPrivkey }

variable (account : Account F G)

def accountIsActive : Bool := 0 < account.kexRoundsComplete

def mainKexRoundsDone : Except String Bool :=
  if account.accountIsActive then do
    return (← multisigKexRoundsRequired account.signers.length account.threshold)
      ≤ account.kexRoundsComplete
  else pure false

def multisigIsReady : Except String Bool := do
  if ← account.mainKexRoundsDone then
    return (← multisigSetupRoundsRequired account.signers.length account.threshold)
      ≤ account.kexRoundsComplete
  else return false

def setMultisigConfig (threshold : Nat) (signers : List G) : Except String (Account F G) := do
  check (0 < threshold ∧ threshold ≤ signers.length)
    "multisig account: tried to set invalid threshold."
  check (2 ≤ signers.length ∧ signers.length ≤ maxSigners)
    "multisig account: tried to set invalid number of signers."
  check (∀ signer ∈ signers, signer ≠ 0)
    "multisig account: tried to set signers, but a signer pubkey is invalid."
  check (account.basePubkey ∈ signers)
    ("multisig account: tried to set signers, but did not find the account's base pubkey in "
      ++ "signer list.")
  let signers := sortKeys S signers
  check (signers.IsChain (· ≠ ·))
    "multisig account: tried to set signers, but there are duplicate signers unexpectedly."
  return { account with threshold := threshold, signers := signers }

def getKexExcludePubkeys : List G :=
  if account.kexRoundsComplete = 0 then [account.basePubkey] else account.kexKeysToOrigins.keys

variable (msgs : List (KexMsg F G))

def participantBaseCommonPrivkeys : List F :=
  account.baseCommonPrivkey
    :: (msgs.filter (·.signingPubkey ≠ account.basePubkey)).map KexMsg.msgPrivkey

def initializeKexUpdate (kexRoundsRequired : Nat) : Except String (Account F G) :=
  if 0 < account.kexRoundsComplete then pure account
  else do
    let commonPrivkey ← makeMultisigCommonPrivkey S (account.participantBaseCommonPrivkeys msgs)
    return { account with
      commonPrivkey := commonPrivkey
      commonPubkey := commonPrivkey • S.base
      multisigPrivkeys :=
        if kexRoundsRequired = 1 then [account.basePrivkey] else account.multisigPrivkeys }

def finalizeKeys (kexRoundsRequired : Nat) (resultKeysToOrigins : KeysetMap G) :
    Except String (List G × Account F G) :=
  if account.kexRoundsComplete = kexRoundsRequired then do
    check (account.multisigPubkey ∈ resultKeysToOrigins.keys)
      "Multisig post-kex round: expected multisig pubkey wasn't found in input messages."
    check (account.commonPubkey ∈ resultKeysToOrigins.keys)
      "Multisig post-kex round: expected common pubkey wasn't found in input messages."
    return ([account.multisigPubkey, account.commonPubkey], account)
  else if account.kexRoundsComplete + 1 = kexRoundsRequired then do
    let (multisigPubkey, multisigPrivkeys) ←
      generateMultisigAggregateKey S resultKeysToOrigins.keys account.multisigPrivkeys
    return ([multisigPubkey, account.commonPubkey], { account with
      multisigPubkey := multisigPubkey
      multisigPrivkeys := multisigPrivkeys
      kexKeysToOrigins := KeyIndex.empty })
  else if account.kexRoundsComplete + 2 = kexRoundsRequired then
    -- the derivations become private keys, only their public keys are sent
    let derivedPubkey := fun derivation => S.hashDerivation derivation • S.base
    pure (resultKeysToOrigins.keys.map derivedPubkey, { account with
      multisigPrivkeys := resultKeysToOrigins.keys.map S.hashDerivation
      kexKeysToOrigins := resultKeysToOrigins.mapKeys derivedPubkey })
  else
    pure (resultKeysToOrigins.keys, { account with kexKeysToOrigins := resultKeysToOrigins })

def finalizeKexUpdate (kexRoundsRequired : Nat) (resultKeysToOrigins : KeysetMap G) :
    Except String (Account F G) := do
  let (nextMsgKeys, account) ← account.finalizeKeys S kexRoundsRequired resultKeysToOrigins
  let kexRoundsComplete := account.kexRoundsComplete + 1
  let round := (if kexRoundsComplete > kexRoundsRequired then kexRoundsRequired
    else kexRoundsComplete) + 1
  return { account with
    kexRoundsComplete := kexRoundsComplete
    nextRoundKexMessage := ← KexMsg.construct S round account.basePrivkey nextMsgKeys 0 }

def kexUpdateImpl (incompleteSignerSet : Bool) :
    Except String (Account F G) := do
  checkMessagesRound msgs (account.kexRoundsComplete + 1)
  let kexRoundsRequired ← multisigKexRoundsRequired account.signers.length account.threshold
  check (0 < kexRoundsRequired) "Multisig kex rounds required unexpectedly 0."
  check (account.kexRoundsComplete < kexRoundsRequired + 1)
    "Multisig kex has already completed all required rounds (including post-kex verification)."
  let account ← account.initializeKexUpdate S msgs kexRoundsRequired
  let resultKeysToOrigins ← multisigKexProcessRoundMsgs S account.basePrivkey account.basePubkey
    (account.kexRoundsComplete + 1) account.threshold account.signers msgs
    account.getKexExcludePubkeys incompleteSignerSet
  account.finalizeKexUpdate S kexRoundsRequired resultKeysToOrigins

def initializeKex (threshold : Nat) (signers : List G) (msgs : List (KexMsg F G)) :
    Except String (Account F G) := do
  check (account.accountIsActive = false)
    "multisig account: tried to initialize kex, but already initialized"
  (← account.setMultisigConfig S threshold signers).kexUpdateImpl S msgs false

def kexUpdate (forceUpdate : Bool) : Except String (Account F G) := do
  check account.accountIsActive
    "multisig account: tried to update kex, but kex isn't initialized yet."
  check ((← account.multisigIsReady) = false)
    "multisig account: tried to update kex, but kex is already complete."
  account.kexUpdateImpl S msgs forceUpdate

end Account

end

end Glaciem.Multisig
