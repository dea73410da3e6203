import Glaciem.Chain.TxInputs

/-!
# Glaciem — which outputs a ring can have

What the checks of a transaction say about the members of its rings. The offsets of a ring are
checked one by one, its members are the running sums, and these wrap at 64 bits: a ring can come
back to an index it has passed.
-/

namespace Glaciem.Chain.TxInputs

open Option hiding all_map map_map pure_def
open List UInt64

/-! ## The indices of a ring -/

theorem length_absoluteFrom (acc : UInt64) (off : List UInt64) :
    (absoluteFrom acc off).length = off.length := by
  induction off generalizing acc with
  | nil => rfl
  | cons offset rest ih => exact congrArg (· + 1) (ih _)

variable {i : Nat}

theorem getElem?_absoluteFrom (acc : UInt64) (off : List UInt64) (hi : i < off.length) :
    (absoluteFrom acc off)[i]? = some ((off.take (i + 1)).sum + acc) := by
  induction off generalizing acc i with
  | nil => exact absurd hi (Nat.not_lt_zero i)
  | cons offset rest ih =>
    cases i with
    | zero => simp [absoluteFrom]
    | succ i =>
      rw [absoluteFrom, getElem?_cons_succ, ih _ (Nat.lt_of_succ_lt_succ hi),
        take_succ_cons, sum_cons]
      congr 1
      rw [← UInt64.add_assoc, UInt64.add_comm offset]

variable (off : List UInt64)

theorem getElem?_absolute (hi : i < off.length) :
    (relativeOutputOffsetsToAbsolute off)[i]? = some (off.take (i + 1)).sum := by
  rw [relativeOutputOffsetsToAbsolute, getElem?_absoluteFrom 0 off hi, UInt64.add_zero]

def segment (i j : Nat) : UInt64 := ((off.drop i).take (j - i)).sum

theorem sum_segment {j : Nat} (h : i ≤ j) :
    (off.take j).sum = (off.take i).sum + segment off i j := by
  obtain ⟨d, rfl⟩ := Nat.exists_eq_add_of_le h
  rw [segment, Nat.add_sub_cancel_left, take_add, sum_append]

/-- No two or more consecutive offsets after the first add up to a multiple of `2 ^ 64`. -/
def NoVanishingRun : Prop := ∀ i j, 1 ≤ i → i + 2 ≤ j → j ≤ off.length → segment off i j ≠ 0

theorem absolute_eq_iff {j : Nat} (hij : i < j) (hj : j < off.length) :
    (relativeOutputOffsetsToAbsolute off)[i]? = (relativeOutputOffsetsToAbsolute off)[j]?
      ↔ segment off (i + 1) (j + 1) = 0 := by
  rw [getElem?_absolute off (hij.trans hj), getElem?_absolute off hj, Option.some.injEq,
    sum_segment off (Nat.succ_le_succ hij.le)]
  exact UInt64.left_eq_add

theorem segment_succ (i : Nat) (hi : i < off.length) : segment off i (i + 1) = off[i] := by
  rw [segment, Nat.add_sub_cancel_left, take_one_drop_eq_of_lt_length hi, sum_singleton]
  rfl

theorem nodup_absolute_iff (hoff : off.tail.all (· ≠ 0) = true) :
    (relativeOutputOffsetsToAbsolute off).Nodup ↔ NoVanishingRun off := by
  have hlength : (relativeOutputOffsetsToAbsolute off).length = off.length :=
    length_absoluteFrom 0 off
  rw [nodup_iff_getElem?_ne_getElem?]
  constructor
  · intro h i j hi hij hj
    have hne := h (i - 1) (j - 1) (by omega) (by omega)
    rw [ne_eq, absolute_eq_iff off (by omega) (by omega)] at hne
    rwa [Nat.sub_add_cancel hi, Nat.sub_add_cancel (by omega)] at hne
  · intro h i j hij hj
    rw [hlength] at hj
    rw [ne_eq, absolute_eq_iff off hij hj]
    rcases lt_or_ge (i + 1) j with hlt | hge
    · exact h (i + 1) (j + 1) (by omega) (by omega) hj
    · -- neighbours differ by one offset, which was checked
      obtain rfl : j = i + 1 := by omega
      rw [segment_succ off (i + 1) hj]
      have hmem : off[i + 1] ∈ off.tail := by
        rw [mem_iff_getElem]
        exact ⟨i, by rw [length_tail]; omega, getElem_tail _⟩
      simpa using all_eq_true.mp hoff _ hmem

section Distinct

variable {K P : Type}

theorem map_of_mapM {α β : Type} {f : α → Option β} {l : List α} {l' : List β}
    (h : l.mapM f = some l') : l.map f = l'.map some := by
  induction l generalizing l' with
  | nil =>
    cases h
    rfl
  | cons a l ih =>
    simp only [mapM_cons, Option.pure_def, bind_eq_bind, bind_eq_some_iff, Option.some.injEq] at h
    obtain ⟨b, hb, rest, hrest, rfl⟩ := h
    rw [map_cons, map_cons, hb, ih hrest]

theorem of_allToKey {tx : Transaction K P} {p : List (TxinToKey K) → Bool}
    (h : allToKey tx.vin p = true) : p tx.toKeyInputs = true := by
  unfold allToKey at h
  split at h
  · cases h
  · next txins htxins =>
    have hkeys : tx.toKeyInputs = txins := by
      simpa [Transaction.toKeyInputs, Function.comp_def]
        using congrArg (filterMap id) (map_of_mapM htxins)
    rwa [hkeys]

theorem ringMembersDiff_of_semantic [DecidableEq K] {X : Crypto K P} {tx : Transaction K P}
    {hfVersion : Nat} (hhf : 6 ≤ hfVersion) (h : checkTxSemantic X tx hfVersion = true) :
    ∀ txin ∈ tx.toKeyInputs, txin.keyOffsets.tail.all (· ≠ 0) = true := by
  have hdiff : checkTxInputsRingMembersDiff tx hfVersion = true := by
    simp only [checkTxSemantic, Bool.and_eq_true] at h
    exact h.1.1.2
  rw [checkTxInputsRingMembersDiff, if_pos hhf] at hdiff
  exact all_eq_true.mp (of_allToKey hdiff)

/-- In a transaction that passes the semantic check, and so in every accepted one, the indices of
each ring are distinct exactly when no two or more consecutive offsets after the first add up to a
multiple of `2 ^ 64`. -/
theorem ring_members_distinct_iff [LinearOrder K] (X : Crypto K P) (tx : Transaction K P)
    (hfVersion : Nat) (hhf : 6 ≤ hfVersion) (hsemantic : checkTxSemantic X tx hfVersion = true) :
    (∀ txin ∈ tx.toKeyInputs, (relativeOutputOffsetsToAbsolute txin.keyOffsets).Nodup)
      ↔ ∀ txin ∈ tx.toKeyInputs, NoVanishingRun txin.keyOffsets :=
  forall₂_congr fun txin htxin => nodup_absolute_iff txin.keyOffsets
    (ringMembersDiff_of_semantic hhf hsemantic txin htxin)

end Distinct

/-! ## What the check reads of the outputs -/

section Reads

variable {K P : Type}

variable (txin : TxinToKey K)

def TxinToKey.indices : List UInt64 := relativeOutputOffsetsToAbsolute txin.keyOffsets

variable (c : View K P)

def View.lastHeight : Nat :=
  ((txin.indices.getLast?.bind (c.output txin.amount)).map OutputData.height).getD 0

def OutputData.spent (o : OutputData P) : UInt64 × P × P := (o.unlockTime, o.pubkey, o.commitment)

def View.members : Option (List (UInt64 × P × P)) :=
  txin.indices.mapM fun index => (c.output txin.amount index).map OutputData.spent

theorem mapM_map {α β γ : Type} (f : α → Option β) (g : β → γ) (l : List α) :
    (l.mapM fun a => (f a).map g) = (l.mapM f).map (map g) := by
  induction l with
  | nil => rfl
  | cons a l ih =>
    simp only [mapM_cons, Option.pure_def, bind_eq_bind, ih]
    cases f a with
    | none => rfl
    | some b =>
      cases l.mapM f with
      | none => rfl
      | some l' => rfl

theorem getLast?_of_mapM {α β : Type} {f : α → Option β} {l : List α} {l' : List β}
    (h : l.mapM f = some l') : l'.getLast? = l.getLast?.bind f := by
  have hlast := congrArg (fun l => l.getLast?.bind id) (map_of_mapM h)
  simpa [Option.bind_map, Function.comp_def] using hlast.symm

def View.unlockedKeys (members : List (UInt64 × P × P)) : Option (List (P × P)) :=
  if members ≠ [] ∧ members.all (fun m => c.isTxSpendtimeUnlocked m.1 c.hfVersion) = true then
    some (members.map Prod.snd)
  else none

theorem View.scan_eq :
    c.scanOutputkeysForIndexes txin = ((c.members txin).bind c.unlockedKeys).map
      fun keys => (keys, c.lastHeight txin) := by
  rw [View.members, mapM_map, View.scanOutputkeysForIndexes, View.lastHeight, TxinToKey.indices]
  cases houtputs : (relativeOutputOffsetsToAbsolute txin.keyOffsets).mapM
    (c.output txin.amount) with
  | none => rfl
  | some outputs =>
    rw [← getLast?_of_mapM houtputs]
    simp only [map_some, bind_some, View.unlockedKeys]
    cases hlast : outputs.getLast? with
    | none =>
      rw [getLast?_eq_none_iff.mp hlast]
      rfl
    | some last =>
      have hne : outputs.map OutputData.spent ≠ [] := by
        rintro hnil
        rw [map_eq_nil_iff.mp hnil] at hlast
        cases hlast
      simp only [hne, ne_eq, not_false_eq_true, true_and, all_map]
      split_ifs with hall hall' hall'
      · simp [OutputData.spent]
      · exact absurd hall hall'
      · exact absurd hall' hall
      · rfl

def View.ring (version : Nat) (signatures : Option Nat) (txin : TxinToKey K) :
    Option (List (P × P)) :=
  if txin.keyOffsets.isEmpty || c.hasKeyImage txin.kImage then none
  else ((c.members txin).bind c.unlockedKeys).bind fun keys =>
    if version = 1 && signatures ≠ some keys.length then none else some keys

theorem View.checkTxInput_eq (version : Nat) (signatures : Option Nat)
    (txin : TxinToKey K) (m : Nat) : c.checkTxInput version signatures txin m
      = (c.ring version signatures txin).map fun keys => (keys, max m (c.lastHeight txin)) := by
  rw [View.checkTxInput, View.ring, View.scan_eq]
  split_ifs
  · rfl
  · cases (c.members txin).bind c.unlockedKeys with
    | none => rfl
    | some keys =>
      simp only [map_some, bind_some]
      split_ifs <;> rfl

def View.rings (c : View K P) (version : Nat) :
    List Nat → List (TxinV K) → Option (List (List (P × P)))
  | _, [] => some []
  | signatures, v :: rest =>
    v.toKey?.bind fun txin => (c.ring version signatures.head? txin).bind fun keys =>
      (c.rings version signatures.tail rest).map (keys :: ·)

def View.maxLastHeight (txins : List (TxinToKey K)) (m : Nat) : Nat :=
  txins.foldl (fun m txin => max m (c.lastHeight txin)) m

theorem View.checkEachInput_eq (version : Nat) (signatures : List Nat)
    (vin : List (TxinV K)) (m : Nat) : c.checkEachInput version signatures vin m
      = (c.rings version signatures vin).map
        fun rings => (rings, c.maxLastHeight (vin.filterMap TxinV.toKey?) m) := by
  induction vin generalizing signatures m with
  | nil => rfl
  | cons v vin ih =>
    cases v with
    | toKey txin =>
      rw [View.checkEachInput, View.checkTxInput_eq, View.rings]
      simp only [TxinV.toKey?, bind_some]
      cases c.ring version signatures.head? txin with
      | none => rfl
      | some keys =>
        simp only [map_some, bind_some, ih, Option.map_map]
        rfl
    | gen | toScript | toScripthash => rfl

end Reads

/-! ## Heights -/

section Heights

variable {K P : Type} {c c' : View K P}

/-- Two chains that differ at most in the heights of their outputs. -/
structure SameButHeights (c c' : View K P) : Prop where
  height_eq : c'.height = c.height
  hfVersion_eq : c'.hfVersion = c.hfVersion
  adjustedTime_eq : c'.adjustedTime = c.adjustedTime
  time_eq : c'.time = c.time
  hasKeyImage_eq : c'.hasKeyImage = c.hasKeyImage
  outputs_eq : ∀ amount, (c'.outputs amount).map OutputData.spent
    = (c.outputs amount).map OutputData.spent

theorem SameButHeights.members_eq (h : SameButHeights c c') (txin : TxinToKey K) :
    c'.members txin = c.members txin := by
  unfold View.members
  congr 1
  funext index
  rw [View.output, View.output, ← getElem?_map, ← getElem?_map, h.outputs_eq]

theorem SameButHeights.unlockedKeys_eq (h : SameButHeights c c') :
    c'.unlockedKeys = c.unlockedKeys := by
  funext members
  have hunlocked : ∀ t, c'.isTxSpendtimeUnlocked t c'.hfVersion
      = c.isTxSpendtimeUnlocked t c.hfVersion := by
    intro t
    simp only [View.isTxSpendtimeUnlocked, h.height_eq, h.hfVersion_eq, h.adjustedTime_eq,
      h.time_eq]
  simp only [View.unlockedKeys, hunlocked]

theorem SameButHeights.rings_eq (h : SameButHeights c c') (version : Nat) (signatures : List Nat)
    (vin : List (TxinV K)) : c'.rings version signatures vin = c.rings version signatures vin := by
  induction vin generalizing signatures with
  | nil => rfl
  | cons v vin ih =>
    simp only [View.rings, View.ring, ih, h.members_eq, h.unlockedKeys_eq, h.hasKeyImage_eq]

theorem SameButHeights.isMixable_eq (h : SameButHeights c c') : c'.isMixable = c.isMixable := by
  funext txin
  have hlength : (c'.outputs txin.amount).length = (c.outputs txin.amount).length := by
    simpa only [length_map] using congrArg length (h.outputs_eq txin.amount)
  rw [View.isMixable, View.isMixable, hlength, h.hfVersion_eq]

variable (c : View K P)

theorem View.checkTxInputs_iff [LinearOrder K] [DecidableEq P] (X : Crypto K P)
    (tx : Transaction K P) (verifiedRings : Option (List (List (P × P)))) (hhf : 12 ≤ c.hfVersion) :
    c.checkTxInputs X tx verifiedRings = true ↔
      ((!(tx.version ≥ 2 && tx.vout.length < 2)) = true ∧ c.checkRingSizes tx = true
          ∧ c.checkTxVersion tx = true ∧ sortedInputs tx = true)
        ∧ ∃ rings, c.rings tx.version tx.signatures tx.vin = some rings
          ∧ c.maxLastHeight tx.toKeyInputs 0 + defaultTxSpendableAge ≤ c.height
          ∧ (verifiedRings = some rings || X.verInputProofsRings tx rings) = true := by
  have h12 : decide (c.hfVersion ≥ 12) = true := decide_eq_true hhf
  have h12' : decide (c.hfVersion < 12) = false := decide_eq_false (by omega)
  have h2 : decide (c.hfVersion < 2) = false := decide_eq_false (by omega)
  have h7 : decide (c.hfVersion < 7) = false := decide_eq_false (by omega)
  rw [View.checkTxInputs, View.checkEachInput_eq, h12, h2, h7]
  cases c.rings tx.version tx.signatures tx.vin with
  | none => simp
  | some rings =>
    simp only [map_some, h12', Bool.false_or, Bool.true_and, Bool.and_eq_true,
      decide_eq_true_eq, Option.some.injEq, exists_eq_left', Transaction.toKeyInputs]
    tauto

def View.MembersAged (tx : Transaction K P) : Prop :=
  ∀ txin ∈ tx.toKeyInputs, ∀ index ∈ txin.indices,
    ∃ o, c.output txin.amount index = some o ∧ o.height + defaultTxSpendableAge ≤ c.height

/-- Every index of a ring is at most the last index of a ring of the same amount. -/
def LastIsGreatest (tx : Transaction K P) : Prop :=
  ∀ txin ∈ tx.toKeyInputs, ∀ index ∈ txin.indices, ∃ txin' ∈ tx.toKeyInputs,
    txin'.amount = txin.amount ∧ ∃ last, txin'.indices.getLast? = some last ∧ index ≤ last

variable {txins : List (TxinToKey K)} {txin : TxinToKey K} {heights : UInt64 → Nat → Nat}

theorem View.le_maxLastHeight (h : txin ∈ txins) (m : Nat) :
    c.lastHeight txin ≤ c.maxLastHeight txins m := by
  induction txins generalizing m with
  | nil => cases h
  | cons t txins ih =>
    rcases mem_cons.mp h with rfl | hrest
    · have hmono : ∀ (l : List (TxinToKey K)) (n : Nat), n ≤ c.maxLastHeight l n := by
        intro l
        induction l with
        | nil => exact Nat.le_refl
        | cons t l ihl => exact fun n => (Nat.le_max_left _ _).trans (ihl _)
      exact (Nat.le_max_right _ _).trans (hmono txins _)
    · exact ih hrest _

theorem View.maxLastHeight_eq_zero (h : ∀ txin ∈ txins, c.lastHeight txin = 0) :
    c.maxLastHeight txins 0 = 0 := by
  induction txins with
  | nil => rfl
  | cons t txins ih =>
    obtain ⟨ht, hrest⟩ := forall_mem_cons.mp h
    rw [View.maxLastHeight, foldl_cons, ht]
    exact ih hrest

theorem View.output_of_rings {version : Nat} {signatures : List Nat}
    {vin : List (TxinV K)} {rings : List (List (P × P))}
    (h : c.rings version signatures vin = some rings) (htxin : txin ∈ vin.filterMap TxinV.toKey?)
    {index : UInt64} (hindex : index ∈ txin.indices) :
    ∃ o, c.output txin.amount index = some o := by
  induction vin generalizing signatures rings with
  | nil => cases htxin
  | cons v vin ih =>
    simp only [View.rings, bind_eq_some_iff, map_eq_some_iff] at h
    obtain ⟨txin₀, hv, keys, hkeys, rest, hrest, -⟩ := h
    rw [filterMap_cons_some hv] at htxin
    rcases mem_cons.mp htxin with rfl | hmem
    · rw [View.ring] at hkeys
      split_ifs at hkeys
      simp only [bind_eq_some_iff] at hkeys
      obtain ⟨-, ⟨members, hmembers, -⟩, -⟩ := hkeys
      obtain ⟨m, -, hm⟩ := mem_map.mp (map_of_mapM hmembers ▸ mem_map_of_mem hindex)
      obtain ⟨o, ho, -⟩ := map_eq_some_iff.mp hm.symm
      exact ⟨o, ho⟩
    · exact ih hrest hmem

theorem View.height_le_of_index_le {amount index index' : UInt64}
    {o o' : OutputData P} (h : index ≤ index') (ho : c.output amount index = some o)
    (ho' : c.output amount index' = some o') : o.height ≤ o'.height := by
  obtain ⟨hlt, rfl⟩ := List.getElem?_eq_some_iff.mp ho
  obtain ⟨hlt', rfl⟩ := List.getElem?_eq_some_iff.mp ho'
  rcases lt_or_eq_of_le (le_iff_toNat_le.mp h) with hindex | hindex
  · exact pairwise_iff_getElem.mp (c.ordered amount) _ _ hlt hlt' hindex
  · simp only [hindex, Nat.le_refl]

def View.withHeights (heights : UInt64 → Nat → Nat)
    (hmono : ∀ amount, Monotone (heights amount)) (hlt : ∀ amount i, heights amount i < c.height) :
    View K P :=
  { c with
    outputs := fun amount => (c.outputs amount).mapIdx fun i o =>
      { o with height := heights amount i }
    ordered := fun amount => by
      rw [pairwise_iff_getElem]
      intro i j hi hj hij
      rw [getElem_mapIdx, getElem_mapIdx]
      exact hmono amount hij.le
    created := fun amount o ho => by
      obtain ⟨i, hi, rfl⟩ := mem_mapIdx.mp ho
      exact hlt amount i }

theorem sameButHeights_withHeights (hmono : ∀ amount, Monotone (heights amount))
    (hlt : ∀ amount i, heights amount i < c.height) :
    SameButHeights c (c.withHeights heights hmono hlt) :=
  ⟨rfl, rfl, rfl, rfl, rfl, fun amount => by
    refine ext_getElem? fun i => ?_
    rw [getElem?_map, getElem?_map, View.withHeights, getElem?_mapIdx, Option.map_map]
    rfl⟩

theorem output_withHeights (hmono : ∀ amount, Monotone (heights amount))
    (hlt : ∀ amount i, heights amount i < c.height) (amount index : UInt64) :
    (c.withHeights heights hmono hlt).output amount index
      = (c.output amount index).map fun o => { o with height := heights amount index.toNat } :=
  getElem?_mapIdx

theorem View.lastHeight_eq {last : UInt64} {o : OutputData P}
    (hlast : txin.indices.getLast? = some last) (ho : c.output txin.amount last = some o) :
    c.lastHeight txin = o.height := by
  rw [View.lastHeight, hlast, bind_some, ho]
  rfl

def View.youngHeights (tx : Transaction K P) (amount : UInt64) (i : Nat) : Nat :=
  if ∃ txin ∈ tx.toKeyInputs, txin.amount = amount ∧
      ∃ last ∈ txin.indices.getLast?, i ≤ last.toNat then 0
  else c.height - 1

theorem View.monotone_youngHeights (tx : Transaction K P) (amount : UInt64) :
    Monotone (c.youngHeights tx amount) := by
  intro i j hij
  unfold View.youngHeights
  split_ifs with hi hj hj
  · exact Nat.le_refl 0
  · exact Nat.zero_le _
  · obtain ⟨txin, htxin, hamount, last, hlast, hle⟩ := hj
    exact absurd ⟨txin, htxin, hamount, last, hlast, hij.trans hle⟩ hi
  · exact Nat.le_refl _

theorem View.youngHeights_lt (tx : Transaction K P) (amount : UInt64) (i : Nat) :
    c.youngHeights tx amount i < c.height := by
  have hpos := c.height_pos
  unfold View.youngHeights
  split_ifs <;> omega

section Aged

variable [LinearOrder K] [DecidableEq P]

variable {verifiedRings : Option (List (List (P × P)))}

theorem membersAged_of_lastIsGreatest {c : View K P} {X : Crypto K P} {tx : Transaction K P}
    (hhf : 12 ≤ c.hfVersion) (haccepted : c.checkTxInputs X tx verifiedRings = true)
    (hlast : LastIsGreatest tx) :
    c.MembersAged tx := by
  obtain ⟨-, rings, hrings, hage, -⟩ := (c.checkTxInputs_iff X tx verifiedRings hhf).mp haccepted
  intro txin htxin index hindex
  obtain ⟨o, ho⟩ := c.output_of_rings hrings htxin hindex
  obtain ⟨txin', htxin', hamount, last, hlast', hle⟩ := hlast txin htxin index hindex
  obtain ⟨o', ho'⟩ := c.output_of_rings hrings htxin' (mem_of_getLast? hlast')
  -- the member is not younger than the last member of `txin'`, whose height the check has seen
  have hheight : o.height ≤ o'.height := c.height_le_of_index_le hle ho (hamount ▸ ho')
  have hmax := c.le_maxLastHeight htxin' 0
  rw [c.lastHeight_eq hlast' ho'] at hmax
  exact ⟨o, ho, by omega⟩

/-- A transaction that some chain accepts is accepted with young outputs after its last members. -/
theorem accepted_with_youngHeights {c : View K P} {X : Crypto K P} {tx : Transaction K P}
    (hhf : 12 ≤ c.hfVersion) (haccepted : c.checkTxInputs X tx verifiedRings = true) :
    (c.withHeights (c.youngHeights tx) (c.monotone_youngHeights tx)
      (c.youngHeights_lt tx)).checkTxInputs X tx verifiedRings = true := by
  have hsame := sameButHeights_withHeights c (c.monotone_youngHeights tx) (c.youngHeights_lt tx)
  have houtput := output_withHeights c (c.monotone_youngHeights tx) (c.youngHeights_lt tx)
  generalize c.withHeights (c.youngHeights tx) _ _ = c' at hsame houtput ⊢
  obtain ⟨⟨houts, hsizes, hversion, hsorted⟩, rings, hrings, hage, hproofs⟩ :=
    (c.checkTxInputs_iff X tx verifiedRings hhf).mp haccepted
  have hzero : ∀ txin ∈ tx.toKeyInputs, c'.lastHeight txin = 0 := by
    intro txin htxin
    cases hlast : txin.indices.getLast? with
    | none =>
      rw [View.lastHeight, hlast]
      rfl
    | some last =>
      obtain ⟨o, ho⟩ := c.output_of_rings hrings htxin (mem_of_getLast? hlast)
      have ho' := houtput txin.amount last
      rw [ho, map_some] at ho'
      rw [c'.lastHeight_eq hlast ho']
      exact if_pos ⟨txin, htxin, rfl, last, hlast, le_rfl⟩
  refine (c'.checkTxInputs_iff X tx verifiedRings (hsame.hfVersion_eq ▸ hhf)).mpr
    ⟨⟨houts, ?_, ?_, hsorted⟩, rings, (hsame.rings_eq _ _ _).trans hrings, ?_, hproofs⟩
  · simpa only [View.checkRingSizes, hsame.isMixable_eq, hsame.hfVersion_eq] using hsizes
  · simpa only [View.checkTxVersion, hsame.isMixable_eq, hsame.hfVersion_eq] using hversion
  · rw [c'.maxLastHeight_eq_zero hzero, hsame.height_eq]
    omega

/-- Whatever the heights of the outputs are, all members of the rings of an accepted transaction are
old enough: this holds exactly if the last members have the greatest indices. -/
theorem ring_members_aged_iff (c : View K P) (X : Crypto K P) (tx : Transaction K P)
    (verifiedRings : Option (List (List (P × P)))) (hhf : 12 ≤ c.hfVersion)
    (_hsemantic : checkTxSemantic X tx c.hfVersion = true)
    (haccepted : c.checkTxInputs X tx verifiedRings = true) :
    (∀ c' : View K P, SameButHeights c c' → c'.checkTxInputs X tx verifiedRings = true →
        c'.MembersAged tx)
      ↔ LastIsGreatest tx := by
  constructor
  · intro haged txin htxin index hindex
    have hsame := sameButHeights_withHeights c (c.monotone_youngHeights tx) (c.youngHeights_lt tx)
    obtain ⟨o, ho, hage⟩ := haged _ hsame (accepted_with_youngHeights hhf haccepted) txin htxin
      index hindex
    rw [output_withHeights] at ho
    obtain ⟨o', -, rfl⟩ := map_eq_some_iff.mp ho
    -- a member of age 10 has height 0, so a last member is at or after it
    simp only [View.youngHeights] at hage
    split_ifs at hage with hcond
    · obtain ⟨txin', htxin', hamount, last, hlast, hle⟩ := hcond
      exact ⟨txin', htxin', hamount, last, hlast, le_iff_toNat_le.mpr hle⟩
    · have hpos := c.height_pos
      have hheight : (c.withHeights (c.youngHeights tx) (c.monotone_youngHeights tx)
        (c.youngHeights_lt tx)).height = c.height := rfl
      rw [hheight, defaultTxSpendableAge] at hage
      omega
  · intro hlast c' hsame haccepted'
    exact membersAged_of_lastIsGreatest (hsame.hfVersion_eq ▸ hhf) haccepted' hlast

end Aged

end Heights

/-! ## Sample transactions -/

def sampleOutputs : List (OutputData Nat) :=
  (range 40).map fun i => ⟨0, i, i, if i < 30 then 5 else 95⟩

def sampleView : View Nat Nat where
  height := 100
  height_pos := by decide
  height_le := by decide
  hfVersion := 18
  adjustedTime := 1800000000
  time := 1800000000
  outputs amount := if amount = 0 then sampleOutputs else []
  ordered amount := by
    split_ifs
    · exact (by decide : sampleOutputs.Pairwise fun o o' => o.height ≤ o'.height)
    · exact Pairwise.nil
  created amount o ho := by
    split_ifs at ho
    · exact (by decide : ∀ o ∈ sampleOutputs, o.height < 100) o ho
    · cases ho
  hasKeyImage _ := false

def sampleCrypto : Crypto Nat Nat := ⟨fun _ => true, fun _ => true, fun _ _ => true⟩

def sampleTx (keyOffsets : List UInt64) : Transaction Nat Nat where
  version := 2
  vin := [.toKey ⟨0, keyOffsets, 7⟩]
  vout := [⟨0, .toTaggedKey 1⟩, ⟨0, .toTaggedKey 2⟩]
  outPk := 2

def plainOffsets : List UInt64 := replicate 16 1

theorem ring_members_distinct_iff_sample :
    sampleView.checkTxInputs sampleCrypto (sampleTx plainOffsets) none = true
      ∧ ∀ txin ∈ (sampleTx plainOffsets).toKeyInputs, NoVanishingRun txin.keyOffsets :=
  ⟨by decide +kernel, (ring_members_distinct_iff sampleCrypto (sampleTx plainOffsets)
    sampleView.hfVersion (by decide) (by decide +kernel)).mp (by decide +kernel)⟩

def repeatingOffsets : List UInt64 := [5, 1, 18446744073709551615, 2] ++ replicate 12 1

/-- An accepted transaction with an output twice in its ring. -/
theorem ring_member_repeated :
    checkTxSemantic sampleCrypto (sampleTx repeatingOffsets) sampleView.hfVersion = true
      ∧ sampleView.checkTxInputs sampleCrypto (sampleTx repeatingOffsets) none = true
      ∧ ¬ (relativeOutputOffsetsToAbsolute repeatingOffsets).Nodup :=
  ⟨by decide +kernel, by decide +kernel, by decide +kernel⟩

theorem ring_members_aged_iff_sample : sampleView.MembersAged (sampleTx plainOffsets) := by
  have haccepted : sampleView.checkTxInputs sampleCrypto (sampleTx plainOffsets) none = true := by
    decide +kernel
  have hlast : LastIsGreatest (sampleTx plainOffsets) := by
    intro txin htxin index hindex
    have hall : (relativeOutputOffsetsToAbsolute plainOffsets).all (· ≤ 16) = true := by
      decide +kernel
    have hle : index ≤ 16 := by
      rw [mem_singleton.mp htxin] at hindex
      exact of_decide_eq_true (all_eq_true.mp hall index hindex)
    exact ⟨⟨0, plainOffsets, 7⟩, mem_cons_self, by rw [mem_singleton.mp htxin], 16,
      by decide +kernel, hle⟩
  exact (ring_members_aged_iff sampleView sampleCrypto (sampleTx plainOffsets) none (by decide)
    (by decide +kernel) haccepted).mpr hlast sampleView ⟨rfl, rfl, rfl, rfl, rfl, fun _ => rfl⟩
    haccepted

def youngOffsets : List UInt64 := [5, 30, 18446744073709551587] ++ replicate 13 1

/-- An accepted transaction with an output of height 95 in its ring, on a chain of height 100. -/
theorem ring_member_too_young :
    checkTxSemantic sampleCrypto (sampleTx youngOffsets) sampleView.hfVersion = true
      ∧ sampleView.checkTxInputs sampleCrypto (sampleTx youngOffsets) none = true
      ∧ 35 ∈ relativeOutputOffsetsToAbsolute youngOffsets
      ∧ (sampleView.output 0 35).map OutputData.height = some 95 :=
  ⟨by decide +kernel, by decide +kernel, by decide +kernel, by decide +kernel⟩

end Glaciem.Chain.TxInputs
