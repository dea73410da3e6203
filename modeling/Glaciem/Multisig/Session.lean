import Glaciem.Multisig.AccountLaws

/-!
# Glaciem — a key exchange between honest signers

Which messages a signer reads in a round, in which order and how often, and whether it forces the
update with too few of them, is the schedule of the session: the account of a signer after some
rounds depends on nothing else.

For each group of signers there is one secret, the product of their keys. The module shows by
induction over the rounds that before round `r` every signer holds the keys of exactly the groups of
`r` signers it is in.
-/

namespace Glaciem.Multisig

open Finset hiding forall_mem_cons map_map mem_cons mem_filter mem_map mem_singleton
  mem_singleton_self
open List

structure Delivery (n : Nat) where
  senders : List (Fin n)
  force : Bool

structure Session (F G : Type) (n : Nat) where
  threshold : Nat
  basePrivkey : Fin n → F
  baseCommonPrivkey : Fin n → F
  /-- The signers as each of them lists them. -/
  signers : Fin n → List G
  /-- What each signer reads in each round, from round 1 on. -/
  delivery : Nat → Fin n → Delivery n

namespace Session

/-! ## Groups and their keys -/

section

variable {F G : Type} {n : Nat} (x : Session F G n)

def rounds : Nat := n - x.threshold + 1

theorem one_le_rounds : 1 ≤ x.rounds := Nat.le_add_left 1 _

/-- The base common keys a signer collects in the first round: its own, and one for each message of
another signer. -/
def collected (i : Fin n) : List F :=
  x.baseCommonPrivkey i
    :: ((x.delivery 1 i).senders.filter (· ≠ i)).map x.baseCommonPrivkey

/-- Every signer reads the messages of all others in each round. A forced update is content with
those of `n - r` others in round `r`, in the last one with any message. -/
def Delivers : Prop :=
  ∀ r i, 1 ≤ r → r ≤ x.rounds + 1 →
    if (x.delivery r i).force ∧ 1 < r then
      (x.delivery r i).senders ≠ []
        ∧ (r ≤ x.rounds → n - r ≤ ((x.delivery r i).senders.toFinset.erase i).card)
    else ∀ j, j ≠ i → j ∈ (x.delivery r i).senders

variable [Field F]

instance atLeastTwo_eight : Nat.AtLeastTwo 8 := ⟨by decide⟩

def secret (T : Finset (Fin n)) : F := 8 ^ (T.card - 1) * ∏ j ∈ T, x.basePrivkey j

variable {x}

theorem secret_singleton (i : Fin n) : x.secret {i} = x.basePrivkey i := by
  simp [secret]

theorem secret_insert {i : Fin n} {T : Finset (Fin n)} (hi : i ∉ T) (hT : T.Nonempty) :
    x.secret (insert i T) = 8 * (x.basePrivkey i * x.secret T) := by
  have hcard := card_pos.mpr hT
  rw [secret, secret, card_insert_of_notMem hi, prod_insert hi,
    show T.card + 1 - 1 = T.card - 1 + 1 by omega, pow_succ]
  ring

end

section

variable {F G : Type} [Field F] [AddCommGroup G] [Module F G] {n : Nat} (S : Suite F G)
  (x : Session F G n)

def pubkey (i : Fin n) : G := x.basePrivkey i • S.base

def share (T : Finset (Fin n)) : F :=
  if x.rounds = 1 then x.secret T else S.hashDerivation (x.secret T • S.base)

def groupKey (r : Nat) (T : Finset (Fin n)) : G :=
  if r = x.rounds then x.share S T • S.base else x.secret T • S.base

/-- The keys that are merged into the public key of the account. -/
noncomputable def finalKeys : List G :=
  sortKeys S ((Finset.univ.powersetCard x.rounds).toList.map (x.groupKey S x.rounds))

noncomputable def coefficient (key : G) : F := S.hashAggregation (key :: x.finalKeys S)

noncomputable def multisigPubkey : G :=
  ((x.finalKeys S).map fun key => x.coefficient S key • key).sum

def sortedCommonPrivkeys (i : Fin n) : List F :=
  (x.collected i).insertionSort fun a b => S.secretBytes a ≤ S.secretBytes b

def commonPrivkey (i : Fin n) : F := S.hashCommon (x.sortedCommonPrivkeys S i)

/-- The list has one value for each group of `r` signers with the property. -/
def Lists {α : Type} (r : Nat) (p : Finset (Fin n) → Prop) (f : Finset (Fin n) → α) (l : List α) :
    Prop :=
  ∀ y, y ∈ l ↔ ∃ T : Finset (Fin n), p T ∧ T.card = r ∧ y = f T

theorem Lists.map {α β : Type} {l : List α} {f : Finset (Fin n) → α} {r : Nat}
    {p : Finset (Fin n) → Prop} (h : Lists r p f l) {f' : Finset (Fin n) → β} {g : α → β}
    (hf : ∀ T, f' T = g (f T)) : Lists r p f' (l.map g) := by
  intro z
  rw [mem_map]
  constructor
  · rintro ⟨y, hy, rfl⟩
    obtain ⟨T, hp, hT, rfl⟩ := (h y).mp hy
    exact ⟨T, hp, hT, (hf T).symm⟩
  · rintro ⟨T, hp, hT, rfl⟩
    exact ⟨f T, (h _).mpr ⟨T, hp, hT, rfl⟩, (hf T).symm⟩

theorem lists_singleton {α : Type} (f : Finset (Fin n) → α) (i : Fin n) :
    Lists 1 (i ∈ ·) f [f {i}] := by
  intro y
  rw [mem_singleton]
  constructor
  · rintro rfl
    exact ⟨{i}, Finset.mem_singleton_self i, card_singleton i, rfl⟩
  · rintro ⟨T, hi, hT, rfl⟩
    obtain ⟨a, rfl⟩ := card_eq_one.mp hT
    rw [Finset.mem_singleton.mp hi]

/-- The parameters and the base keys are good, and every signer lists all of them. -/
structure Honest : Prop where
  two_le : 2 ≤ n
  le_max : n ≤ maxSigners
  threshold_pos : 1 ≤ x.threshold
  threshold_le : x.threshold ≤ n
  base_ne : S.base ≠ 0
  eight_ne : (8 : F) ≠ 0
  privkey_ne : ∀ i, x.basePrivkey i ≠ 0
  privkey_injective : Function.Injective x.basePrivkey
  common_ne : ∀ i, x.baseCommonPrivkey i ≠ 0
  signers_perm : ∀ i, (x.signers i).Perm (ofFn (x.pubkey S))

/-- No two of the secrets and hashes of the session collide, and no hash is zero. -/
structure CollisionFree : Prop where
  group : ∀ r, r ≤ x.rounds → ∀ T T' : Finset (Fin n), T.card = r → T'.card = r →
    x.groupKey S r T = x.groupKey S r T' → T = T'
  share_ne : ∀ T : Finset (Fin n), T.card = x.rounds → x.share S T ≠ 0
  coefficient_ne : ∀ key ∈ x.finalKeys S, x.coefficient S key ≠ 0
  common : ∀ i j, x.commonPrivkey S i = x.commonPrivkey S j →
    x.sortedCommonPrivkeys S i = x.sortedCommonPrivkeys S j
  common_ne : ∀ i, x.commonPrivkey S i ≠ 0
  pubkey_ne : x.multisigPubkey S ≠ 0
  pubkey_ne_common : ∀ i, x.multisigPubkey S ≠ x.commonPrivkey S i • S.base

variable {S x}

theorem length_of_perm {signers : List G} (h : signers.Perm (ofFn (x.pubkey S))) :
    signers.length = n := by rw [h.length_eq, length_ofFn]

theorem groupKey_one_singleton (i : Fin n) : x.groupKey S 1 {i} = x.pubkey S i := by
  rw [groupKey]
  split
  · next hr => rw [share, if_pos hr.symm, secret_singleton, pubkey]
  · rw [secret_singleton, pubkey]

theorem groupKey_of_lt {r : Nat} (hr : r < x.rounds) (T : Finset (Fin n)) :
    x.groupKey S r T = x.secret T • S.base :=
  if_neg (by omega)

theorem groupKey_rounds (T : Finset (Fin n)) : x.groupKey S x.rounds T = x.share S T • S.base :=
  if_pos rfl

section

variable (h : x.Honest S)

include h

theorem Honest.config : ValidConfig n x.threshold :=
  ⟨h.two_le, h.le_max, h.threshold_pos, h.threshold_le⟩

theorem Honest.smul_base_injective : Function.Injective fun y : F => y • S.base :=
  smul_left_injective F h.base_ne

theorem Honest.pubkey_injective : Function.Injective (x.pubkey S) :=
  h.smul_base_injective.comp h.privkey_injective

theorem Honest.pubkey_ne (i : Fin n) : x.pubkey S i ≠ 0 := smul_ne_zero (h.privkey_ne i) h.base_ne

theorem Honest.secret_ne (T : Finset (Fin n)) : x.secret T ≠ 0 :=
  mul_ne_zero (pow_ne_zero _ h.eight_ne) (prod_ne_zero_iff.mpr fun i _ => h.privkey_ne i)

theorem Honest.groupKey_ne (hfree : x.CollisionFree S) {r : Nat} {T : Finset (Fin n)}
    (hT : T.card = r) : x.groupKey S r T ≠ 0 := by
  rw [groupKey]
  split
  · next hr => exact smul_ne_zero (hfree.share_ne T (hT.trans hr)) h.base_ne
  · exact smul_ne_zero (h.secret_ne T) h.base_ne

end

end

section

variable {F G : Type} [Field F] [AddCommGroup G] [Module F G] [DecidableEq G]
  {n : Nat} (S : Suite F G) (x : Session F G n)

def accountAfter [DecidableEq F] : Nat → Fin n → Except String (Account F G)
  | 0, i => Account.new S (x.basePrivkey i) (x.baseCommonPrivkey i)
  | r + 1, i => do
    let account ← accountAfter r i
    let msgs ← (x.delivery (r + 1) i).senders.mapM fun j => do
      (← accountAfter r j).nextRoundKexMessage.parseAndValidate
    if r = 0 then account.initializeKex S x.threshold (x.signers i) msgs
    else account.kexUpdate S msgs (x.delivery (r + 1) i).force

/-! ## What the signers hold -/

structure Message (j : Fin n) (r : Nat) (msg : KexMsg F G) : Prop where
  round : msg.kexRound = r
  signer : msg.signingPubkey = x.pubkey S j
  privkey : r = 1 → msg.msgPrivkey = x.baseCommonPrivkey j
  first : r = 1 → msg.msgPubkeys = []
  keys : 1 < r → r ≤ x.rounds → Lists r (j ∈ ·) (x.groupKey S r) msg.msgPubkeys
  last : r = x.rounds + 1 →
    msg.msgPubkeys = [x.multisigPubkey S, x.commonPrivkey S j • S.base]

structure Configured (i : Fin n) (account : Account F G) : Prop where
  basePrivkey : account.basePrivkey = x.basePrivkey i
  basePubkey : account.basePubkey = x.pubkey S i
  threshold : account.threshold = x.threshold
  signers : account.signers.Perm (ofFn (x.pubkey S))
  common : account.commonPubkey = x.commonPrivkey S i • S.base

structure Ready (i : Fin n) (r : Nat) (account : Account F G) : Prop extends
    x.Configured S i account where
  rounds : account.kexRoundsComplete = r
  exclude_nodup : account.getKexExcludePubkeys.Nodup
  exclude : Lists (r + 1) (i ∈ ·) (x.groupKey S (r + 1)) account.getKexExcludePubkeys
  privkeys_nodup : r + 1 = x.rounds → account.multisigPrivkeys.Nodup
  privkeys : r + 1 = x.rounds → Lists x.rounds (i ∈ ·) (x.share S) account.multisigPrivkeys

structure Done (i : Fin n) (account : Account F G) : Prop extends x.Configured S i account where
  rounds : account.kexRoundsComplete = x.rounds
  pubkey : account.multisigPubkey = x.multisigPubkey S
  privkeys : Lists x.rounds (i ∈ ·)
    (fun T => x.coefficient S (x.groupKey S x.rounds T) * x.share S T) account.multisigPrivkeys

variable {S x}

theorem Configured.config {i : Fin n} {account : Account F G} (ha : x.Configured S i account)
    (h : x.Honest S) : ValidConfig account.signers.length account.threshold := by
  rw [length_of_perm ha.signers, ha.threshold]
  exact h.config

theorem Configured.rounds_eq {i : Fin n} {account : Account F G} (ha : x.Configured S i account) :
    account.signers.length - account.threshold + 1 = x.rounds := by
  rw [length_of_perm ha.signers, ha.threshold, rounds]

/-! ## Evaluating the messages of a round -/

variable (S x) in
/-- Signer `i` reads the messages of some signers in round `r` and collects from them the keys of
groups it is not in. -/
structure Reading (i : Fin n) (r : Nat) (message : Fin n → KexMsg F G) (senders : List (Fin n))
    (exclude : List G) (collected : KeysetMap G) : Prop where
  honest : x.Honest S
  free : x.CollisionFree S
  one_le : 1 ≤ r
  le_rounds : r ≤ x.rounds
  msgs : ∀ j, x.Message S j r (message j)
  own : Lists r (i ∈ ·) (x.groupKey S r) exclude
  nodup : exclude.Nodup
  collect : collected = collectedKeys (x.pubkey S i) r (senders.map message) exclude

section

variable {i : Fin n} {r : Nat} {message : Fin n → KexMsg F G} {senders : List (Fin n)}
  {exclude : List G} {collected : KeysetMap G}
  (h : x.Reading S i r message senders exclude collected)

section

include h

theorem Reading.recommended {j : Fin n} (hij : j ≠ i) :
    Lists r (fun T => j ∈ T ∧ i ∉ T) (x.groupKey S r) ((message j).recommended r exclude) := by
  intro key
  rw [KexMsg.recommended]
  split
  · next hone =>
    subst hone
    rw [(h.msgs j).signer, ← groupKey_one_singleton, lists_singleton]
    refine exists_congr fun T => and_congr_left fun hT => (and_iff_left_of_imp fun hj hi => ?_).symm
    obtain ⟨a, rfl⟩ := card_eq_one.mp hT.1
    exact hij ((Finset.mem_singleton.mp hj).trans (Finset.mem_singleton.mp hi).symm)
  · next hone =>
    have hr := h.one_le
    rw [mem_filter, decide_eq_true_eq, (h.msgs j).keys (by omega) h.le_rounds, h.own]
    constructor
    · rintro ⟨⟨T, hj, hcard, rfl⟩, hown⟩
      exact ⟨T, ⟨hj, fun hi => hown ⟨T, hi, hcard, rfl⟩⟩, hcard, rfl⟩
    · rintro ⟨T, ⟨hj, hi⟩, hcard, rfl⟩
      refine ⟨⟨T, hj, hcard, rfl⟩, ?_⟩
      rintro ⟨T', hi', hcard', heq⟩
      exact hi (h.free.group r h.le_rounds T T' hcard hcard' heq ▸ hi')

theorem Reading.mem_owners {key origin : G} :
    origin ∈ collected.owners key ↔ ∃ j ∈ senders, origin = x.pubkey S j
      ∧ ∃ T : Finset (Fin n), (j ∈ T ∧ i ∉ T) ∧ T.card = r ∧ key = x.groupKey S r T := by
  rw [h.collect, mem_owners_collectedKeys]
  simp only [mem_map, exists_exists_and_eq_and]
  constructor
  · rintro ⟨⟨j, hj, rfl, hkey⟩, hother⟩
    rw [(h.msgs j).signer] at hother ⊢
    have hij : j ≠ i := fun hij => hother (hij ▸ rfl)
    exact ⟨j, hj, rfl, (h.recommended hij key).mp hkey⟩
  · rintro ⟨j, hj, rfl, T, hT, hkey⟩
    have hij : j ≠ i := fun hij => hT.2 (hij ▸ hT.1)
    refine ⟨⟨j, hj, (h.msgs j).signer, ?_⟩, fun heq => hij (h.honest.pubkey_injective heq)⟩
    exact (h.recommended hij key).mpr ⟨T, hT, hkey⟩

theorem Reading.owners_groupKey {T : Finset (Fin n)} (hi : i ∉ T) (hT : T.card = r) :
    collected.owners (x.groupKey S r T) = (T.filter (· ∈ senders)).image (x.pubkey S) := by
  ext origin
  rw [h.mem_owners, mem_image]
  constructor
  · rintro ⟨j, hj, rfl, T', hT', hcard, heq⟩
    obtain rfl := h.free.group r h.le_rounds T T' hT hcard heq
    exact ⟨j, Finset.mem_filter.mpr ⟨hT'.1, hj⟩, rfl⟩
  · rintro ⟨j, hj, rfl⟩
    rw [Finset.mem_filter] at hj
    exact ⟨j, hj.2, rfl, T, ⟨hj.1, hi⟩, hT, rfl⟩

theorem Reading.keys
    (hcover : ∀ T : Finset (Fin n), i ∉ T → T.card = r → ∃ j ∈ T, j ∈ senders) :
    Lists r (i ∉ ·) (x.groupKey S r) collected.keys := by
  intro key
  rw [KeyIndex.mem_keys]
  constructor
  · rintro ⟨origin, horigin⟩
    obtain ⟨j, -, -, T, hT, hcard, rfl⟩ := h.mem_owners.mp horigin
    exact ⟨T, hT.2, hcard, rfl⟩
  · rintro ⟨T, hi, hcard, rfl⟩
    obtain ⟨j, hjT, hj⟩ := hcover T hi hcard
    exact ⟨x.pubkey S j, h.mem_owners.mpr ⟨j, hj, rfl, T, ⟨hjT, hi⟩, hcard, rfl⟩⟩

theorem Reading.allOwners (hlt : r < n) :
    collected.allOwners = (senders.toFinset.erase i).image (x.pubkey S) := by
  ext origin
  rw [KeyIndex.mem_allOwners, mem_image]
  constructor
  · rintro ⟨key, horigin⟩
    obtain ⟨j, hj, rfl, T, hT, -⟩ := h.mem_owners.mp horigin
    refine ⟨j, mem_erase.mpr ⟨fun hij => hT.2 (hij ▸ hT.1), ?_⟩, rfl⟩
    exact mem_toFinset.mpr hj
  · rintro ⟨j, hj, rfl⟩
    rw [mem_erase, mem_toFinset] at hj
    obtain ⟨T, hjT, hdisj, hcard⟩ := exists_group (s := {i})
      (fun hmem => hj.1 (Finset.mem_singleton.mp hmem)) h.one_le (by simp; omega)
    refine ⟨x.groupKey S r T, h.mem_owners.mpr ⟨j, hj.2, rfl, T, ⟨hjT, ?_⟩, hcard, rfl⟩⟩
    exact disjoint_singleton_right.mp hdisj

theorem Reading.card_image_groupsWith {j : Fin n} {s : Finset (Fin n)} (hj : j ∉ s) :
    ((groupsWith r j s).image (x.groupKey S r)).card = (n - 1 - s.card).choose (r - 1) := by
  rw [card_image_of_injOn, card_groupsWith hj, Fintype.card_fin]
  intro T hT T' hT' heq
  exact h.free.group r h.le_rounds T T' ((mem_groupsWith hj h.one_le).mp hT).2.2
    ((mem_groupsWith hj h.one_le).mp hT').2.2 heq

theorem Reading.card_keysOf {j : Fin n} (hj : j ∈ senders) (hij : j ≠ i) :
    (collected.keysOf (x.pubkey S j)).card = (n - 2).choose (r - 1) := by
  have hnot : j ∉ ({i} : Finset (Fin n)) := fun hmem => hij (Finset.mem_singleton.mp hmem)
  have hkeys : collected.keysOf (x.pubkey S j) = (groupsWith r j {i}).image (x.groupKey S r) := by
    ext key
    rw [KeyIndex.mem_keysOf, h.mem_owners, mem_image]
    constructor
    · rintro ⟨j', -, heq, T, hT, hcard, rfl⟩
      obtain rfl := h.honest.pubkey_injective heq
      exact ⟨T, (mem_groupsWith hnot h.one_le).mpr
        ⟨hT.1, disjoint_singleton_right.mpr hT.2, hcard⟩, rfl⟩
    · rintro ⟨T, hT, rfl⟩
      obtain ⟨hjT, hdisj, hcard⟩ := (mem_groupsWith hnot h.one_le).mp hT
      exact ⟨j, hj, rfl, T, ⟨hjT, disjoint_singleton_right.mp hdisj⟩, hcard, rfl⟩
  rw [hkeys, h.card_image_groupsWith hnot, card_singleton, Nat.sub_sub]

theorem Reading.length_exclude : exclude.length = (n - 1).choose (r - 1) := by
  have hkeys : exclude.toFinset = (groupsWith r i ∅).image (x.groupKey S r) := by
    ext key
    rw [mem_toFinset, h.own, mem_image]
    constructor
    · rintro ⟨T, hi, hcard, rfl⟩
      exact ⟨T, (mem_groupsWith (notMem_empty i) h.one_le).mpr
        ⟨hi, disjoint_empty_right T, hcard⟩, rfl⟩
    · rintro ⟨T, hT, rfl⟩
      obtain ⟨hi, -, hcard⟩ := (mem_groupsWith (notMem_empty i) h.one_le).mp hT
      exact ⟨T, hi, hcard, rfl⟩
  rw [← toFinset_card_of_nodup h.nodup, hkeys, h.card_image_groupsWith (notMem_empty i),
    card_empty, Nat.sub_zero]

end

/-- The messages of all others, or for a forced update of enough of them. -/
def Reached (i : Fin n) (r : Nat) (incomplete : Bool) (senders : List (Fin n)) : Prop :=
  if incomplete then n - r ≤ (senders.toFinset.erase i).card else ∀ j, j ≠ i → j ∈ senders

variable {incomplete : Bool} {signers : List G}

omit [DecidableEq G] [Field F] [AddCommGroup G] [Module F G] in
/-- A group of `r` signers and `n - r` others among `n - 1` have a common member. -/
theorem Reached.exists_sender (hsent : Reached i r incomplete senders) (hr : 1 ≤ r)
    {T : Finset (Fin n)} (hi : i ∉ T) (hT : T.card = r) :
    ∃ j ∈ T, j ∈ senders := by
  have hsub : T ⊆ Finset.univ.erase i := fun j hj =>
    mem_erase.mpr ⟨fun hij => hi (hij ▸ hj), mem_univ j⟩
  cases incomplete with
  | false =>
    obtain ⟨j, hj⟩ := card_pos.mp (hT ▸ hr : 0 < T.card)
    exact ⟨j, hj, hsent j (mem_erase.mp (hsub hj)).1⟩
  | true =>
    have hothers : (Finset.univ.erase i : Finset (Fin n)).card = n - 1 := by
      rw [card_erase_of_mem (mem_univ i), card_univ, Fintype.card_fin]
    have hle := card_le_card hsub
    have hlarge : n - r ≤ (senders.toFinset.erase i).card := hsent
    have hn := i.pos
    obtain ⟨j, hjT, hj⟩ := exists_mem_inter (S := T) (T := senders.toFinset.erase i) hsub
      (erase_subset_erase i (subset_univ _)) (by omega)
    exact ⟨j, hjT, mem_toFinset.mp (mem_erase.mp hj).2⟩

include h in
theorem Reading.complete (hlt : r < n) (hsigners : signers.Perm (ofFn (x.pubkey S)))
    (hsent : Reached i r incomplete senders) :
    Complete signers exclude r incomplete collected := by
  have hlength := length_of_perm hsigners
  have hthere : ∀ origin ∈ collected.allOwners, ∃ j ∈ senders, j ≠ i ∧ origin = x.pubkey S j := by
    intro origin horigin
    rw [h.allOwners hlt, mem_image] at horigin
    obtain ⟨j, hj, rfl⟩ := horigin
    rw [mem_erase, mem_toFinset] at hj
    exact ⟨j, hj.2, hj.1, rfl⟩
  refine ⟨?_, ?_, ?_, ?_, ?_⟩
  · rw [hlength]
    exact h.length_exclude
  · intro key hkey
    obtain ⟨T, hi, hcard, rfl⟩ := (h.keys (fun T => hsent.exists_sender h.one_le) key).mp hkey
    rw [h.owners_groupKey hi hcard, card_image_of_injective _ h.honest.pubkey_injective]
    cases incomplete with
    | false =>
      have hall : T.filter (· ∈ senders) = T :=
        filter_true_of_mem fun j hj => hsent j fun hij => hi (hij ▸ hj)
      rw [hall, hcard]
      exact Nat.le_refl r
    | true =>
      obtain ⟨j, hjT, hj⟩ := hsent.exists_sender h.one_le hi hcard
      exact card_pos.mpr ⟨j, Finset.mem_filter.mpr ⟨hjT, hj⟩⟩
  · rw [h.allOwners hlt, card_image_of_injective _ h.honest.pubkey_injective, hlength]
    cases incomplete with
    | false =>
      have hall : senders.toFinset.erase i = Finset.univ.erase i := by
        ext j
        rw [mem_erase, mem_erase, mem_toFinset]
        exact and_congr_right fun hij => iff_of_true (hsent j hij) (mem_univ j)
      rw [hall, card_erase_of_mem (mem_univ i), card_univ, Fintype.card_fin]
      exact Nat.le_refl (n - 1)
    | true =>
      have hlarge : n - r ≤ (senders.toFinset.erase i).card := hsent
      have hr := h.one_le
      rw [if_pos rfl]
      omega
  · intro origin horigin
    obtain ⟨j, hj, hij, rfl⟩ := hthere origin horigin
    rw [hlength]
    exact h.card_keysOf hj hij
  · intro origin horigin
    obtain ⟨j, -, -, rfl⟩ := hthere origin horigin
    exact hsigners.mem_iff.mpr (mem_ofFn.mpr ⟨j, rfl⟩)

omit [DecidableEq G] in
theorem inRound_map (hmsgs : ∀ j, x.Message S j r (message j)) (hne : senders ≠ []) :
    InRound r (senders.map message) := by
  refine ⟨by simpa using hne, fun msg hmsg => ?_⟩
  obtain ⟨j, -, rfl⟩ := mem_map.mp hmsg
  exact (hmsgs j).round

include h in
/-- In the last round of 1-of-N there is no group without the local signer, and nothing is
evaluated. -/
theorem Reading.exists_evaluated (hsigners : signers.Perm (ofFn (x.pubkey S)))
    (hne : senders ≠ []) (hsent : Reached i r incomplete senders) :
    ∃ evaluated : KeysetMap G, evaluatedKeys S (x.pubkey S i) r x.threshold signers
        (senders.map message) exclude incomplete = .ok evaluated
      ∧ Lists r (i ∉ ·) (x.groupKey S r) evaluated.keys := by
  have hlength := length_of_perm hsigners
  have htwo := h.honest.two_le
  have hbound : r ≤ n - x.threshold + 1 := h.le_rounds
  unfold evaluatedKeys
  rw [hlength]
  by_cases hsole : x.threshold = 1 ∧ r = n - x.threshold + 1
  · refine ⟨KeyIndex.empty, if_pos hsole, fun key => iff_of_false not_mem_nil ?_⟩
    rintro ⟨T, hi, hcard, -⟩
    have hall : T = Finset.univ := by
      rw [← card_eq_iff_eq_univ, hcard, Fintype.card_fin]
      omega
    exact hi (hall ▸ mem_univ i)
  · have hpos := h.honest.threshold_pos
    have hlt : r < n := by omega
    refine ⟨collected, ?_, h.keys fun T => hsent.exists_sender h.one_le⟩
    rw [if_neg hsole, if_pos hbound, h.collect]
    exact evaluateMultisigKexRoundMsgs_ok S h.nodup (inRound_map h.msgs hne) h.one_le
      (hlength.symm ▸ hlt) (hlength.symm ▸ h.honest.le_max)
      (h.collect ▸ h.complete hlt hsigners hsent)

include h in
theorem Reading.exists_processed (hsigners : signers.Perm (ofFn (x.pubkey S)))
    (hne : senders ≠ []) (hsent : Reached i r incomplete senders) :
    ∃ result, multisigKexProcessRoundMsgs S (x.basePrivkey i) (x.pubkey S i) r x.threshold signers
        (senders.map message) exclude incomplete = .ok result
      ∧ (r < x.rounds → Lists (r + 1) (i ∈ ·) (x.secret · • S.base) result.keys)
      ∧ (r = x.rounds → Lists r (i ∉ ·) (x.groupKey S r) result.keys) := by
  have hlength := length_of_perm hsigners
  obtain ⟨evaluated, heval, hkeys⟩ := h.exists_evaluated hsigners hne hsent
  have hrounds : signers.length - x.threshold + 1 = x.rounds := by rw [hlength, rounds]
  have hok := multisigKexProcessRoundMsgs_ok S (x.basePrivkey i) (hlength.symm ▸ h.honest.config)
    h.one_le (hrounds ▸ Nat.le_succ_of_le h.le_rounds) heval
  rw [hrounds] at hok
  refine ⟨_, hok, fun hlt key => ?_, fun heq => ?_⟩
  · rw [if_pos hlt, mem_keys_multisigKexMakeRoundKeys]
    -- the Diffie-Hellman step adds the local signer to a group
    have hstep : ∀ T : Finset (Fin n), i ∉ T → T.card = r →
        (8 : F) • x.basePrivkey i • x.groupKey S r T = x.secret (insert i T) • S.base := by
      intro T hi hT
      have hne : T.Nonempty := card_pos.mp (hT ▸ h.one_le)
      rw [groupKey_of_lt hlt, smul_smul, smul_smul, secret_insert hi hne, mul_assoc]
    constructor
    · rintro ⟨pubkey, hpubkey, rfl⟩
      obtain ⟨T, hi, hT, rfl⟩ := (hkeys pubkey).mp hpubkey
      exact ⟨insert i T, mem_insert_self i T, by rw [card_insert_of_notMem hi, hT], hstep T hi hT⟩
    · rintro ⟨T, hi, hT, rfl⟩
      have hcard : (T.erase i).card = r := by rw [card_erase_of_mem hi, hT]; rfl
      have hnot : i ∉ T.erase i := notMem_erase i T
      refine ⟨x.groupKey S r (T.erase i), (hkeys _).mpr ⟨_, hnot, hcard, rfl⟩, ?_⟩
      rw [hstep _ hnot hcard, insert_erase hi]
  · rw [if_neg (by omega)]
    exact hkeys

end

/-! ## Completing a round -/

variable [DecidableEq F]

/-- After round `r + 1` the account is ready for the next, or has its keys if it was the last, and
it has the message to send. -/
def Updated (S : Suite F G) (x : Session F G n) (i : Fin n) (r : Nat)
    (outcome : Except String (Account F G)) : Prop :=
  ∃ account, outcome = .ok account ∧ (r + 1 < x.rounds → x.Ready S i (r + 1) account)
    ∧ (r + 1 = x.rounds → x.Done S i account) ∧ x.Message S i (r + 2) account.nextRoundKexMessage

section

variable (h : x.Honest S) (hfree : x.CollisionFree S) {i : Fin n} {r : Nat} {account : Account F G}
  (ha : x.Ready S i r account) {result : KeysetMap G}

include h ha

/-- The message for the next round, once the keys to send are known. -/
theorem Ready.finalize_of_keys {keys : List G} {account₀ : Account F G}
    (hfinal : account.finalizeKeys S x.rounds result = .ok (keys, account₀))
    (hbase : account₀.basePrivkey = account.basePrivkey)
    (hrounds : account₀.kexRoundsComplete = account.kexRoundsComplete) (hle : r + 1 ≤ x.rounds)
    (hne : ∀ key ∈ keys, key ≠ 0)
    (hkeys : r + 2 ≤ x.rounds → Lists (r + 2) (i ∈ ·) (x.groupKey S (r + 2)) keys)
    (hlast : r + 1 = x.rounds → keys = [x.multisigPubkey S, x.commonPrivkey S i • S.base]) :
    ∃ msg, account.finalizeKexUpdate S x.rounds result
        = .ok { account₀ with kexRoundsComplete := r + 1, nextRoundKexMessage := msg }
      ∧ x.Message S i (r + 2) msg := by
  have hok := Account.finalizeKexUpdate_ok S hfinal x.one_le_rounds
    (hbase.trans ha.basePrivkey ▸ h.privkey_ne i) hne
  rw [hrounds, ha.rounds, min_eq_right hle] at hok
  exact ⟨_, hok, {
    round := rfl
    signer := by rw [pubkey, ← ha.basePrivkey, hbase]
    privkey := fun heq => by omega
    first := fun heq => by omega
    keys := fun _ => hkeys
    last := fun heq => hlast (Nat.succ.inj heq) }⟩

theorem Ready.finalize_intermediate (hlt : r + 2 < x.rounds)
    (hkeys : Lists (r + 2) (i ∈ ·) (x.secret · • S.base) result.keys) :
    x.Updated S i r (account.finalizeKexUpdate S x.rounds result) := by
  have hgroup : Lists (r + 2) (i ∈ ·) (x.groupKey S (r + 2)) result.keys := by
    rw [funext (groupKey_of_lt hlt)]
    exact hkeys
  have hne : ∀ key ∈ result.keys, key ≠ 0 := by
    intro key hkey
    obtain ⟨T, -, -, rfl⟩ := (hkeys key).mp hkey
    exact smul_ne_zero (h.secret_ne T) h.base_ne
  have hfinal : account.finalizeKeys S x.rounds result
      = .ok (result.keys, { account with kexKeysToOrigins := result }) := by
    rw [Account.finalizeKeys, ha.rounds, if_neg (by omega), if_neg (by omega), if_neg (by omega)]
    rfl
  obtain ⟨msg, hok, hmsg⟩ := ha.finalize_of_keys h hfinal rfl rfl (by omega) hne (fun _ => hgroup)
    fun heq => by omega
  refine ⟨_, hok, fun _ => ?_, fun heq => by omega, hmsg⟩
  exact {
    toConfigured := { ha.toConfigured with }
    rounds := rfl
    exclude_nodup := result.nodup_keys
    exclude := hgroup
    privkeys_nodup := fun heq => by omega
    privkeys := fun heq => by omega }

include hfree

theorem Ready.finalize_penultimate (hlast : r + 2 = x.rounds)
    (hkeys : Lists (r + 2) (i ∈ ·) (x.secret · • S.base) result.keys) :
    x.Updated S i r (account.finalizeKexUpdate S x.rounds result) := by
  have hshare : ∀ T : Finset (Fin n), x.share S T = S.hashDerivation (x.secret T • S.base) :=
    fun T => if_neg (by omega)
  have hprivkeys : Lists (r + 2) (i ∈ ·) (x.share S) (result.keys.map S.hashDerivation) :=
    hkeys.map hshare
  have hgroup : Lists (r + 2) (i ∈ ·) (x.groupKey S (r + 2))
      (result.keys.map fun derivation => S.hashDerivation derivation • S.base) :=
    hkeys.map fun T => by rw [hlast, groupKey_rounds, hshare]
  -- different derivations have different hashes, since they belong to different groups
  have hinj : ∀ a ∈ result.keys, ∀ b ∈ result.keys, S.hashDerivation a = S.hashDerivation b →
      a = b := by
    intro a ha b hb heq
    obtain ⟨T, -, hT, rfl⟩ := (hkeys a).mp ha
    obtain ⟨T', -, hT', rfl⟩ := (hkeys b).mp hb
    rw [← hshare, ← hshare] at heq
    have hgroups := hfree.group x.rounds le_rfl T T' (hT.trans hlast) (hT'.trans hlast)
      (by rw [groupKey_rounds, groupKey_rounds, heq])
    rw [hgroups]
  have hfinal : account.finalizeKeys S x.rounds result
      = .ok (result.keys.map fun derivation => S.hashDerivation derivation • S.base, { account with
            multisigPrivkeys := result.keys.map S.hashDerivation
            kexKeysToOrigins :=
              result.mapKeys fun derivation => S.hashDerivation derivation • S.base }) := by
    rw [Account.finalizeKeys, ha.rounds, if_neg (by omega), if_neg (by omega), if_pos hlast]
    rfl
  have hne : ∀ key ∈ result.keys.map fun derivation => S.hashDerivation derivation • S.base,
      key ≠ 0 := by
    intro key hkey
    obtain ⟨T, -, hT, rfl⟩ := (hgroup key).mp hkey
    exact h.groupKey_ne hfree hT
  obtain ⟨msg, hok, hmsg⟩ := ha.finalize_of_keys h hfinal rfl rfl (by omega) hne (fun _ => hgroup)
    fun heq => by omega
  refine ⟨_, hok, fun _ => ?_, fun heq => by omega, hmsg⟩
  exact {
    toConfigured := { ha.toConfigured with }
    rounds := rfl
    exclude_nodup := KeyIndex.nodup_keys _
    exclude := fun key => KeyIndex.mem_keys_mapKeys.trans (mem_map.symm.trans (hgroup key))
    privkeys_nodup := fun _ => result.nodup_keys.map_on hinj
    privkeys := fun _ => hlast ▸ hprivkeys }

omit [DecidableEq F] in
theorem Ready.perm_finalKeys (hlast : r + 1 = x.rounds)
    (hkeys : Lists x.rounds (i ∉ ·) (x.groupKey S x.rounds) result.keys) :
    (result.keys ++ account.multisigPrivkeys.map (· • S.base)).Nodup
      ∧ sortKeys S (result.keys ++ account.multisigPrivkeys.map (· • S.base)) = x.finalKeys S := by
  have hown : Lists x.rounds (i ∈ ·) (x.groupKey S x.rounds)
      (account.multisigPrivkeys.map (· • S.base)) := (ha.privkeys hlast).map groupKey_rounds
  have hnodup : (result.keys ++ account.multisigPrivkeys.map (· • S.base)).Nodup := by
    refine nodup_append.mpr ⟨result.nodup_keys,
      (ha.privkeys_nodup hlast).map h.smul_base_injective, fun a hmem b hmem' heq => ?_⟩
    obtain ⟨T, hi, hT, rfl⟩ := (hkeys a).mp hmem
    obtain ⟨T', hi', hT', rfl⟩ := (hown b).mp hmem'
    exact hi (hfree.group _ le_rfl T T' hT hT' heq ▸ hi')
  refine ⟨hnodup, insertionSort_eq_of_perm S.publicBytes_injective ?_⟩
  have hall : ((Finset.univ.powersetCard x.rounds).toList.map (x.groupKey S x.rounds)).Nodup := by
    refine (nodup_toList _).map_on fun T hT T' hT' heq => ?_
    rw [mem_toList, mem_powersetCard_univ] at hT hT'
    exact hfree.group _ le_rfl T T' hT hT' heq
  refine (perm_ext_iff_of_nodup hnodup hall).mpr fun key => ?_
  rw [mem_append, hkeys, hown, mem_map]
  simp only [mem_toList, mem_powersetCard_univ]
  constructor
  · rintro (⟨T, -, hT, rfl⟩ | ⟨T, -, hT, rfl⟩)
    · exact ⟨T, hT, rfl⟩
    · exact ⟨T, hT, rfl⟩
  · rintro ⟨T, hT, rfl⟩
    by_cases hi : i ∈ T
    · exact .inr ⟨T, hi, hT, rfl⟩
    · exact .inl ⟨T, hi, hT, rfl⟩

theorem Ready.finalize_last (hlast : r + 1 = x.rounds)
    (hkeys : Lists x.rounds (i ∉ ·) (x.groupKey S x.rounds) result.keys) :
    x.Updated S i r (account.finalizeKexUpdate S x.rounds result) := by
  obtain ⟨hnodup, hsorted⟩ := ha.perm_finalKeys h hfree hlast hkeys
  have hnonzero : ∀ y ∈ account.multisigPrivkeys, y ≠ 0 := by
    intro y hy
    obtain ⟨T, -, hT, rfl⟩ := (ha.privkeys hlast y).mp hy
    exact hfree.share_ne T hT
  have hfinal : account.finalizeKeys S x.rounds result
      = .ok ([x.multisigPubkey S, account.commonPubkey], { account with
          multisigPubkey := x.multisigPubkey S
          multisigPrivkeys := account.multisigPrivkeys.map fun y => x.coefficient S (y • S.base) * y
          kexKeysToOrigins := KeyIndex.empty }) := by
    rw [Account.finalizeKeys, ha.rounds, if_neg (by omega), if_pos hlast]
    exact ok_bind
      (generateMultisigAggregateKey_ok S hnodup hsorted hnonzero hfree.coefficient_ne) _
  have hne : ∀ key ∈ [x.multisigPubkey S, account.commonPubkey], key ≠ 0 := by
    rw [forall_mem_cons, forall_mem_singleton, ha.common]
    exact ⟨hfree.pubkey_ne, smul_ne_zero (hfree.common_ne i) h.base_ne⟩
  obtain ⟨msg, hok, hmsg⟩ := ha.finalize_of_keys h hfinal rfl rfl hlast.le hne
    (fun hle => by omega) fun _ => by rw [ha.common]
  refine ⟨_, hok, fun hlt => by omega, fun _ => ?_, hmsg⟩
  exact {
    toConfigured := { ha.toConfigured with }
    rounds := hlast
    pubkey := rfl
    privkeys := (ha.privkeys hlast).map fun T => by rw [groupKey_rounds] }

theorem Ready.finalize (hle : r + 1 ≤ x.rounds)
    (hkeys : r + 1 < x.rounds → Lists (r + 2) (i ∈ ·) (x.secret · • S.base) result.keys)
    (hfinal : r + 1 = x.rounds → Lists (r + 1) (i ∉ ·) (x.groupKey S (r + 1)) result.keys) :
    x.Updated S i r (account.finalizeKexUpdate S x.rounds result) := by
  rcases lt_trichotomy (r + 2) x.rounds with hlt | heq | hgt
  · exact ha.finalize_intermediate h hlt (hkeys (by omega))
  · exact ha.finalize_penultimate h hfree heq (hkeys (by omega))
  · have hlast : r + 1 = x.rounds := by omega
    exact ha.finalize_last h hfree hlast (hlast ▸ hfinal hlast)

theorem Ready.update {message : Fin n → KexMsg F G} {senders : List (Fin n)} (incomplete : Bool)
    {before : Account F G} (hle : r + 1 ≤ x.rounds)
    (hmsgs : ∀ j, x.Message S j (r + 1) (message j)) (hne : senders ≠ [])
    (hsent : Reached i (r + 1) incomplete senders)
    (hthreshold : before.threshold = x.threshold) (hlength : before.signers.length = n)
    (hrounds : before.kexRoundsComplete = r)
    (hinit : before.initializeKexUpdate S (senders.map message) x.rounds = .ok account) :
    x.Updated S i r (before.kexUpdateImpl S (senders.map message) incomplete) := by
  have hrequired : before.signers.length - before.threshold + 1 = x.rounds := by
    rw [hlength, hthreshold, Session.rounds]
  have hreading : x.Reading S i (r + 1) message senders account.getKexExcludePubkeys _ :=
    ⟨h, hfree, Nat.le_add_left 1 r, hle, hmsgs, ha.exclude, ha.exclude_nodup, rfl⟩
  obtain ⟨result, hresult, hkeys, hfinal⟩ := hreading.exists_processed ha.signers hne hsent
  obtain ⟨account', hok, hupdated⟩ := ha.finalize h hfree hle hkeys hfinal
  refine ⟨account', ?_, hupdated⟩
  rw [← hrequired] at hinit hok
  refine Account.kexUpdateImpl_ok S ?_ ?_ (hrounds ▸ inRound_map hmsgs hne) hinit ?_ hok
  · rw [hthreshold, hlength]
    exact h.config
  · rw [hrequired, hrounds]
    omega
  · rw [ha.basePrivkey, ha.basePubkey, ha.rounds, ha.threshold]
    exact hresult

end

/-! ## The first round -/

section

variable (S x) in
structure Fresh (i : Fin n) (account : Account F G) : Prop where
  basePrivkey : account.basePrivkey = x.basePrivkey i
  basePubkey : account.basePubkey = x.pubkey S i
  baseCommonPrivkey : account.baseCommonPrivkey = x.baseCommonPrivkey i
  rounds : account.kexRoundsComplete = 0

variable (h : x.Honest S)

include h

theorem exists_fresh (i : Fin n) :
    ∃ account, Account.new S (x.basePrivkey i) (x.baseCommonPrivkey i) = .ok account
      ∧ x.Fresh S i account ∧ x.Message S i 1 account.nextRoundKexMessage := by
  have hmsg := KexMsg.construct_first S (h.privkey_ne i) (h.common_ne i) []
  refine ⟨_, ok_bind hmsg _, ⟨rfl, rfl, rfl, rfl⟩, ?_⟩
  exact {
    round := rfl
    signer := rfl
    privkey := fun _ => rfl
    first := fun _ => rfl
    keys := fun hlt _ => by omega
    last := fun heq => absurd x.one_le_rounds (by omega) }

variable (hfree : x.CollisionFree S) {i : Fin n} {account : Account F G}
  {message : Fin n → KexMsg F G} (hmsgs : ∀ j, x.Message S j 1 (message j))

include hmsgs in
omit [DecidableEq F] in
theorem Fresh.participantBaseCommonPrivkeys_eq (ha : x.Fresh S i account) :
    account.participantBaseCommonPrivkeys ((x.delivery 1 i).senders.map message)
      = x.collected i := by
  rw [Account.participantBaseCommonPrivkeys, collected, ha.baseCommonPrivkey, filter_map, map_map]
  congr 1
  have hsame : ∀ j, ((fun msg : KexMsg F G => decide (msg.signingPubkey ≠ account.basePubkey))
      ∘ message) j = decide (j ≠ i) := by
    intro j
    rw [Function.comp_apply, (hmsgs j).signer, ha.basePubkey, decide_eq_decide]
    exact h.pubkey_injective.ne_iff
  rw [filter_congr fun j _ => hsame j]
  exact map_congr_left fun j _ => (hmsgs j).privkey rfl

include hmsgs hfree in
theorem Fresh.initialize (ha : x.Fresh S i account) (hthreshold : account.threshold = x.threshold)
    (hsigners : account.signers.Perm (ofFn (x.pubkey S))) :
    ∃ account', account.initializeKexUpdate S ((x.delivery 1 i).senders.map message) x.rounds
        = .ok account' ∧ x.Ready S i 0 account' := by
  have hmake : makeMultisigCommonPrivkey S (account.participantBaseCommonPrivkeys
      ((x.delivery 1 i).senders.map message)) = .ok (x.commonPrivkey S i) := by
    rw [ha.participantBaseCommonPrivkeys_eq h hmsgs]
    exact check_bind (hfree.common_ne i) _
  refine ⟨_, Account.initializeKexUpdate_first S ha.rounds hmake, ?_⟩
  have hexclude : (account.withCommonPrivkey S (x.commonPrivkey S i) x.rounds).getKexExcludePubkeys
      = [x.pubkey S i] := by
    rw [Account.getKexExcludePubkeys, ← ha.basePubkey]
    exact if_pos ha.rounds
  refine {
    basePrivkey := ha.basePrivkey
    basePubkey := ha.basePubkey
    threshold := hthreshold
    signers := hsigners
    common := rfl
    rounds := ha.rounds
    exclude_nodup := hexclude ▸ nodup_singleton _
    exclude := ?_
    privkeys_nodup := fun hone => ?_
    privkeys := fun hone => ?_ }
  · rw [hexclude, ← groupKey_one_singleton]
    exact lists_singleton _ i
  · rw [Account.withCommonPrivkey, if_pos hone.symm]
    exact nodup_singleton _
  · have hshare : x.share S {i} = account.basePrivkey := by
      rw [share, if_pos hone.symm, secret_singleton, ha.basePrivkey]
    rw [Account.withCommonPrivkey, if_pos hone.symm, ← hshare, ← hone]
    exact lists_singleton _ i

end

/-! ## Whole runs -/

section

variable (h : x.Honest S) (hfree : x.CollisionFree S) (hsent : x.Delivers) {r : Nat}

include h hfree in
omit [DecidableEq F] in
theorem Message.parse_ok {j : Fin n} {msg : KexMsg F G} (hmsg : x.Message S j r msg)
    (hr : 1 ≤ r) (hle : r ≤ x.rounds + 1) : msg.parseAndValidate = .ok msg := by
  refine KexMsg.parseAndValidate_ok (fun key hkey => ?_) (hmsg.signer ▸ h.pubkey_ne j)
  rcases lt_or_ge x.rounds r with hlast | hmain
  · rw [hmsg.last (by omega), mem_cons, mem_singleton] at hkey
    rcases hkey with rfl | rfl
    · exact hfree.pubkey_ne
    · exact smul_ne_zero (hfree.common_ne j) h.base_ne
  · rcases lt_or_ge 1 r with hlater | hfirst
    · obtain ⟨T, -, hT, rfl⟩ := (hmsg.keys hlater hmain key).mp hkey
      exact h.groupKey_ne hfree hT
    · rw [hmsg.first (by omega)] at hkey
      cases hkey

variable {account : Fin n → Account F G}

include h hfree in
theorem mapM_parse_ok
    (haccount : ∀ j, x.accountAfter S r j = .ok (account j))
    (hmsgs : ∀ j, x.Message S j (r + 1) (account j).nextRoundKexMessage) (hle : r ≤ x.rounds)
    (senders : List (Fin n)) :
    (senders.mapM fun j => do (← x.accountAfter S r j).nextRoundKexMessage.parseAndValidate)
      = .ok (senders.map fun j => (account j).nextRoundKexMessage) := by
  induction senders with
  | nil => rfl
  | cons j senders ih =>
    have hread : (do (← x.accountAfter S r j).nextRoundKexMessage.parseAndValidate)
        = .ok (account j).nextRoundKexMessage :=
      (ok_bind (haccount j) _).trans
        ((hmsgs j).parse_ok h hfree (Nat.le_add_left 1 r) (Nat.succ_le_succ hle))
    rw [mapM_cons, ok_bind hread, ok_bind ih]
    rfl

include h hsent in
omit [DecidableEq F] [DecidableEq G] in
theorem senders_ne_nil (hr : 1 ≤ r) (hle : r ≤ x.rounds + 1) (i : Fin n) :
    (x.delivery r i).senders ≠ [] := by
  have hround := hsent r i hr hle
  split at hround
  · exact hround.1
  · have : Nontrivial (Fin n) := Fin.nontrivial_iff_two_le.mpr h.two_le
    obtain ⟨j, hji⟩ := exists_ne i
    exact ne_nil_of_mem (hround j hji)

include hsent in
omit [Field F] [AddCommGroup G] [Module F G] [DecidableEq F] [DecidableEq G] in
theorem sent_of_delivers (hr : 1 ≤ r) (hle : r ≤ x.rounds) (i : Fin n) {incomplete : Bool}
    (hincomplete : incomplete = true → (x.delivery r i).force = true ∧ 1 < r)
    (hcomplete : incomplete = false → (x.delivery r i).force = false ∨ r = 1) :
    Reached i r incomplete (x.delivery r i).senders := by
  have hround := hsent r i hr (by omega)
  cases incomplete with
  | true =>
    rw [if_pos (hincomplete rfl)] at hround
    exact hround.2 hle
  | false =>
    have hnot : ¬ ((x.delivery r i).force = true ∧ 1 < r) := by
      rintro ⟨hforce, hlt⟩
      rcases hcomplete rfl with hf | hone
      · rw [hforce] at hf
        cases hf
      · omega
    rw [if_neg hnot] at hround
    exact hround

variable (S x) in
structure After (i : Fin n) (r : Nat) (account : Account F G) : Prop where
  fresh : r = 0 → x.Fresh S i account
  ready : 0 < r → r < x.rounds → x.Ready S i r account
  done : r = x.rounds → x.Done S i account
  message : x.Message S i (r + 1) account.nextRoundKexMessage

include h in
omit [DecidableEq F] in
theorem Fresh.configure {i : Fin n} {account : Account F G} (ha : x.Fresh S i account) :
    ∃ account', account.setMultisigConfig S x.threshold (x.signers i) = .ok account'
      ∧ x.Fresh S i account' ∧ account'.threshold = x.threshold
      ∧ account'.signers.Perm (ofFn (x.pubkey S)) := by
  have hperm := h.signers_perm i
  have hlength := length_of_perm hperm
  have hne : ∀ signer ∈ x.signers i, signer ≠ 0 := by
    intro signer hsigner
    obtain ⟨j, rfl⟩ := mem_ofFn.mp (hperm.mem_iff.mp hsigner)
    exact h.pubkey_ne j
  have hown : account.basePubkey ∈ x.signers i := by
    rw [ha.basePubkey, hperm.mem_iff]
    exact mem_ofFn.mpr ⟨i, rfl⟩
  have hnodup : (x.signers i).Nodup := hperm.nodup_iff.mpr (nodup_ofFn.mpr h.pubkey_injective)
  exact ⟨_, Account.setMultisigConfig_ok S (hlength.symm ▸ h.config) hne hown hnodup,
    ⟨ha.basePrivkey, ha.basePubkey, ha.baseCommonPrivkey, ha.rounds⟩, rfl,
    (sortKeys_perm S (x.signers i)).trans hperm⟩

include h hfree hsent in
theorem initializeKex_ok (i : Fin n)
    (hafter : ∀ j, x.After S j 0 (account j)) :
    ∃ account', (account i).initializeKex S x.threshold (x.signers i)
        ((x.delivery 1 i).senders.map fun j => (account j).nextRoundKexMessage) = .ok account'
      ∧ x.After S i 1 account' := by
  have hpos := x.one_le_rounds
  have hmsgs := fun j => (hafter j).message
  obtain ⟨configured, hconfig, hfresh, hthreshold, hsigners⟩ := ((hafter i).fresh rfl).configure h
  obtain ⟨ready, hinit, hready⟩ := hfresh.initialize h hfree hmsgs hthreshold hsigners
  obtain ⟨account', hok, hnext, hdone, hmsg⟩ := hready.update h hfree false hpos hmsgs
    (senders_ne_nil h hsent (Nat.le_refl 1) (by omega) i)
    (sent_of_delivers hsent (Nat.le_refl 1) hpos i (fun hf => by cases hf) fun _ => .inr rfl)
    hthreshold (length_of_perm hsigners) hfresh.rounds hinit
  refine ⟨account', ?_, ⟨fun h => by omega, fun _ => hnext, hdone, hmsg⟩⟩
  have hinactive : (account i).accountIsActive = false := by
    rw [Account.accountIsActive, ((hafter i).fresh rfl).rounds]
    rfl
  rw [Account.initializeKex]
  refine (check_bind hinactive _).trans ?_
  exact (ok_bind hconfig _).trans hok

include h hfree hsent in
theorem kexUpdate_ok (i : Fin n) (hr : 0 < r)
    (hlt : r < x.rounds) (hafter : ∀ j, x.After S j r (account j)) :
    ∃ account', (account i).kexUpdate S
        ((x.delivery (r + 1) i).senders.map fun j => (account j).nextRoundKexMessage)
        (x.delivery (r + 1) i).force = .ok account'
      ∧ x.After S i (r + 1) account' := by
  have hready := (hafter i).ready hr hlt
  have hlength := length_of_perm hready.signers
  obtain ⟨account', hok, hnext, hdone, hmsg⟩ := hready.update h hfree
    (x.delivery (r + 1) i).force hlt (fun j => (hafter j).message)
    (senders_ne_nil h hsent (by omega) (by omega) i)
    (sent_of_delivers hsent (by omega) hlt i (fun hforce => ⟨hforce, by omega⟩)
      fun hforce => .inl hforce)
    hready.threshold hlength hready.rounds
    (Account.initializeKexUpdate_later S (hready.rounds.symm ▸ hr))
  refine ⟨account', ?_, ⟨fun h => by omega, fun _ => hnext, hdone, hmsg⟩⟩
  refine (Account.kexUpdate_eq S (hready.config h) ?_ (hready.rounds.symm ▸ hr) _ _).trans hok
  rw [hready.rounds_eq, hready.rounds]
  exact hlt.le

include h hfree hsent in
theorem exists_accountAfter (hr : r ≤ x.rounds) (i : Fin n) :
    ∃ account, x.accountAfter S r i = .ok account ∧ x.After S i r account := by
  induction r generalizing i with
  | zero =>
    obtain ⟨account, hnew, hfresh, hmsg⟩ := exists_fresh h i
    have hpos := x.one_le_rounds
    exact ⟨account, hnew, fun _ => hfresh, fun h => by omega, fun h => by omega, hmsg⟩
  | succ r ih =>
    choose account haccount hafter using fun j => ih (by omega) j
    have hread := mapM_parse_ok h hfree haccount (fun j => (hafter j).message) (by omega)
      (x.delivery (r + 1) i).senders
    rw [accountAfter, ok_bind (haccount i), ok_bind hread]
    cases r with
    | zero => exact initializeKex_ok h hfree hsent i hafter
    | succ r => exact kexUpdate_ok h hfree hsent i (Nat.succ_pos r) hr hafter

end

end

end Session

end Glaciem.Multisig
