import Glaciem.Lib.System
import Glaciem.Lib.Dict

/-!
# Glaciem — the cache of the RPC worker

`cloudflare/glaciem-rpc-worker.js` answers daemon RPC calls for the nodes behind it, and keeps
answers for some seconds. Three methods are kept for an hour: those by hash and `get_block`. What
the nodes answer to them is `on_get_block_header_by_hash` and `on_get_block` of
`rpc/core_rpc_server.cpp`. Requests, the passing of time, evictions and changes of the chains of the
nodes are the steps.
-/

namespace Glaciem.Rpc

open List Dict

/-! ## The nodes -/

section Nodes

structure BlockData where
  majorVersion : Nat
  minorVersion : Nat
  timestamp : Nat
  prevHash : String
  nonce : Nat
  /-- The height in the coinbase, `none` if it has not just one input of the type `txin_gen`. -/
  coinbaseHeight : Option Nat
  reward : Nat
  txHashes : List String
  minerTxHash : String
  blob : String
  json : String
  deriving DecidableEq

variable (H : Type)

structure MainBlock where
  hash : H
  data : BlockData
  cumulativeDifficulty : Nat
  weight : Nat
  longTermWeight : Nat
  deriving DecidableEq

structure NodeView where
  main : List (MainBlock H)
  alts : Dict H BlockData
  restricted : Bool
  deriving DecidableEq

/-- `block_header_response`, with the difficulties as numbers. -/
structure BlockHeader where
  data : BlockData
  orphanStatus : Bool
  height : Nat
  depth : Nat
  hash : H
  difficulty : Nat
  cumulativeDifficulty : Nat
  blockWeight : Nat
  longTermWeight : Nat
  powHash : String
  deriving DecidableEq

structure BlockQuery where
  hash : String := ""
  hashes : List String := []
  height : Nat := 0
  fillPowHash : Bool := false
  deriving DecidableEq

inductive LongMethod where
  | headerByHash
  | block
  deriving DecidableEq

inductive Body where
  | headers (header : Option (BlockHeader H)) (headers : List (BlockHeader H))
  | block (header : BlockHeader H)
  | error (code : Int) (message : String)
  /-- the answer of another method -/
  | other (text : String)
  deriving DecidableEq

structure Env where
  parseHash256 : String → Option H
  /-- `get_block_longhash` of a block at a height. -/
  longhash : NodeView H → BlockData → Nat → String
  /-- What a node loads from the text of the parameters; `none` if it cannot. -/
  load : LongMethod → String → Option BlockQuery
  /-- `JSON.stringify` of what the worker has parsed from that text. -/
  stringify : String → String
  /-- The answer of a node to another method, with the status of HTTP. -/
  other : NodeView H → String → String → Nat × Body H

end Nodes

section Answers

variable {H : Type} [DecidableEq H] (E : Env H) (v : NodeView H)

def CORE_RPC_ERROR_CODE_WRONG_PARAM : Int := -1
def CORE_RPC_ERROR_CODE_TOO_BIG_HEIGHT : Int := -2
def CORE_RPC_ERROR_CODE_INTERNAL_ERROR : Int := -5
def CORE_RPC_ERROR_CODE_RESTRICTED : Int := -19
def RESTRICTED_BLOCK_COUNT : Nat := 1000

def NodeView.getBlockByHash (hash : H) : Option (BlockData × Bool) :=
  match v.main.find? fun b => b.hash = hash with
  | some b => some (b.data, false)
  | none => (v.alts.get? hash).map fun data => (data, true)

def NodeView.fillBlockHeaderResponse (data : BlockData) (orphan : Bool) (height : Nat) (hash : H)
    (fillPowHash : Bool) : Option (BlockHeader H) :=
  (v.main[height]?).map fun row =>
    let before := if height = 0 then 0
      else ((v.main[height - 1]?).map MainBlock.cumulativeDifficulty).getD 0
    { data := data
      orphanStatus := orphan
      height := height
      depth := (v.main.length + 2 ^ 64 - height - 1) % 2 ^ 64
      hash := hash
      difficulty := row.cumulativeDifficulty - before
      cumulativeDifficulty := row.cumulativeDifficulty
      blockWeight := row.weight
      longTermWeight := row.longTermWeight
      powHash := if fillPowHash then E.longhash v data height else "" }

/-- The header of a block that was found by its hash, or the error. A call that throws is answered
with an empty error. -/
def NodeView.headerOf (hash : H) (text : String) (fillPowHash : Bool) :
    Except (Int × String) (BlockHeader H) :=
  match v.getBlockByHash hash with
  | none => .error (CORE_RPC_ERROR_CODE_INTERNAL_ERROR,
      "Internal error: can't get block by hash. Hash = " ++ text ++ ".")
  | some (data, orphan) =>
    match data.coinbaseHeight with
    | none => .error (CORE_RPC_ERROR_CODE_INTERNAL_ERROR,
        "Internal error: coinbase transaction in the block has the wrong type")
    | some height =>
      match v.fillBlockHeaderResponse E data orphan height hash (fillPowHash && !v.restricted) with
      | none => .error (0, "")
      | some header => .ok header

/-- The lambda of `on_get_block_header_by_hash`, and the same part of `on_get_block`. -/
def NodeView.get (text : String) (fillPowHash : Bool) : Except (Int × String) (BlockHeader H) :=
  match E.parseHash256 text with
  | none => .error (CORE_RPC_ERROR_CODE_WRONG_PARAM,
      "Failed to parse hex representation of block hash. Hex = " ++ text ++ ".")
  | some hash => v.headerOf E hash text fillPowHash

def Body.ofExcept {α : Type} (f : α → Body H) : Except (Int × String) α → Body H
  | .error (code, message) => .error code message
  | .ok a => f a

def NodeView.onGetBlockHeaderByHash (q : BlockQuery) : Body H :=
  if v.restricted && RESTRICTED_BLOCK_COUNT < q.hashes.length then
    .error CORE_RPC_ERROR_CODE_RESTRICTED "Too many block headers requested in restricted mode"
  else
    Body.ofExcept (fun r => .headers r.1 r.2) do
      let header ← if q.hash = "" then .ok none else (v.get E q.hash q.fillPowHash).map some
      let headers ← q.hashes.mapM fun text => v.get E text q.fillPowHash
      return (header, headers)

def NodeView.onGetBlock (q : BlockQuery) : Body H :=
  if q.hash ≠ "" then Body.ofExcept .block (v.get E q.hash q.fillPowHash)
  else
    match v.main[q.height]? with
    | none => .error CORE_RPC_ERROR_CODE_TOO_BIG_HEIGHT ("Requested block height: "
        ++ toString q.height ++ " greater than current top block height: "
        ++ toString (v.main.length - 1))
    | some b => Body.ofExcept .block (v.headerOf E b.hash q.hash q.fillPowHash)

def longMethod : String → Option LongMethod
  | "get_block_header_by_hash" | "getblockheaderbyhash" => some .headerByHash
  | "get_block" => some .block
  | _ => none

def NodeView.answer (method params : String) : Nat × Body H :=
  match longMethod method with
  | none => E.other v method params
  | some m =>
    match E.load m params with
    | none => (200, .error (-32602) "Invalid params")
    | some q =>
      match m with
      | .headerByHash => (200, v.onGetBlockHeaderByHash E q)
      | .block => (200, v.onGetBlock E q)

end Answers

/-! ## The worker -/

section Worker

variable {H : Type} [DecidableEq H] (E : Env H)

/-- `CACHE_TTL`, 0 for a method that is not in it. -/
def cacheTtl : String → Nat
  | "get_info" | "getinfo" | "get_last_block_header" | "getlastblockheader" | "get_block_count"
  | "getblockcount" | "get_height" => 8
  | "get_block_header_by_height" | "getblockheaderbyheight" => 5
  | "get_block_header_by_hash" | "getblockheaderbyhash" | "get_block" => 3600
  | _ => 0

/-- A request: a call of JSON-RPC at a path, with the text of its parameters, or a path with a query
and no body. -/
inductive Request where
  | rpc (uri method params : String)
  | path (name query : String)
  deriving DecidableEq

/-- The URL under which an answer is kept. The hash in it is taken to be its input. -/
inductive Key where
  | rpc (method params : String)
  | path (name : String)
  deriving DecidableEq

/-- An answer that is kept. `params` is proof-only: the text of the parameters it was the answer to.
-/
structure Kept (H : Type) where
  body : Body H
  expires : Nat
  params : String
  deriving DecidableEq

/-- The nodes in the order of `ORIGINS`, the cache and the time in seconds. -/
structure WorkerState (H : Type) where
  origins : List (NodeView H)
  cache : Dict Key (Kept H) := Dict.empty
  now : Nat := 0

def WorkerState.start (origins : List (NodeView H)) : WorkerState H where
  origins := origins

def Request.key : Request → Option (Key × Nat)
  | .rpc uri method params =>
    if "/json_rpc".toList <:+ uri.toList ∧ cacheTtl method ≠ 0 then
      some (.rpc method (E.stringify params), cacheTtl method)
    else none
  | .path name _ => if cacheTtl name ≠ 0 then some (.path name, cacheTtl name) else none

def Request.params : Request → String
  | .rpc _ _ params => params
  | .path _ query => query

/-- What a node answers. Only the path `/json_rpc` is one for calls, and the long-lived methods are
no paths of their own. -/
def NodeView.reply (v : NodeView H) : Request → Nat × Body H
  | .rpc uri method params =>
    if uri = "/json_rpc" then v.answer E method params else (404, .other "Not found")
  | .path name query =>
    if longMethod name = none then E.other v name query else (404, .other "Not found")

variable (s : WorkerState H)

def WorkerState.passThrough (up : List Bool) (r : Request) : Option (Nat × Body H) :=
  ((s.origins.zip up).filterMap fun o => if o.2 then some (o.1.reply E r) else none).find?
    fun reply => reply.1 < 500

def WorkerState.hit (key : Key) : Option (Kept H) :=
  match s.cache.get? key with
  | some kept => if s.now < kept.expires then some kept else none
  | none => none

inductive Event (H : Type) where
  | wait (seconds : Nat)
  /-- an answer is dropped before its time -/
  | evict (key : Key)
  /-- the chain of a node changes -/
  | chain (i : Nat) (v : NodeView H)
  /-- a request, with the nodes that are up -/
  | request (up : List Bool) (r : Request)

def WorkerState.store (key : Key) (ttl : Nat) (params : String) :
    Option (Nat × Body H) → WorkerState H
  | some (status, body) =>
    if status < 400 then { s with cache := s.cache.set key ⟨body, s.now + ttl, params⟩ } else s
  | none => s

def workerStep : Event H → Option (WorkerState H)
  | .wait seconds => some { s with now := s.now + seconds }
  | .evict key => some { s with cache := s.cache.erase key }
  | .chain i v => some { s with origins := s.origins.set i v }
  | .request up r =>
    match r.key E with
    | none => some s
    | some (key, ttl) =>
      match s.hit key with
      | some _ => some s
      | none => some (s.store key ttl r.params (s.passThrough E up r))

def workers : System (WorkerState H) (Event H) := ⟨workerStep E⟩

end Worker

/-! ## Answers that do not change -/

section Unaffected

variable {H : Type} [DecidableEq H] (E : Env H) (v v' : NodeView H)

/-- The block, and where there is one the height of the chain and the rows that its header is made
of. -/
def SameBlock (fillPowHash : Bool) (hash : H) : Prop :=
  v.getBlockByHash hash = v'.getBlockByHash hash
    ∧ ∀ data orphan height, v.getBlockByHash hash = some (data, orphan) →
        data.coinbaseHeight = some height →
        v.main.length = v'.main.length ∧ v.main[height]? = v'.main[height]?
          ∧ v.main[height - 1]? = v'.main[height - 1]?
          ∧ (fillPowHash = true → E.longhash v data height = E.longhash v' data height)

def SameText (fillPowHash : Bool) (text : String) : Prop :=
  ∀ hash, E.parseHash256 text = some hash → SameBlock E v v' fillPowHash hash

def SameQuery (q : BlockQuery) : LongMethod → Prop
  | .headerByHash => (q.hash ≠ "" → SameText E v v' q.fillPowHash q.hash)
      ∧ ∀ text ∈ q.hashes, SameText E v v' q.fillPowHash text
  | .block => (q.hash ≠ "" → SameText E v v' q.fillPowHash q.hash)
      ∧ (q.hash = "" → v.main.length = v'.main.length ∧ v.main[q.height]? = v'.main[q.height]?
          ∧ ∀ b ∈ v.main[q.height]?, SameBlock E v v' q.fillPowHash b.hash)

def Unaffected (m : LongMethod) (params : String) : Prop :=
  v.restricted = v'.restricted ∧ ∀ q ∈ E.load m params, SameQuery E v v' q m

variable {E} {v v'}

section

variable (hrestricted : v.restricted = v'.restricted)

include hrestricted

variable {fillPowHash : Bool}

theorem headerOf_of_sameBlock {hash : H} {text : String}
    (h : SameBlock E v v' fillPowHash hash) :
    v.headerOf E hash text fillPowHash = v'.headerOf E hash text fillPowHash := by
  obtain ⟨hfound, hrows⟩ := h
  unfold NodeView.headerOf
  rw [← hfound, ← hrestricted]
  cases hblock : v.getBlockByHash hash with
  | none => rfl
  | some found =>
    obtain ⟨data, orphan⟩ := found
    dsimp only
    cases hheight : data.coinbaseHeight with
    | none => rfl
    | some height =>
      obtain ⟨hlength, hrow, hbefore, hpow⟩ := hrows data orphan height hblock hheight
      have hfill : v.fillBlockHeaderResponse E data orphan height hash
            (fillPowHash && !v.restricted)
          = v'.fillBlockHeaderResponse E data orphan height hash
            (fillPowHash && !v.restricted) := by
        unfold NodeView.fillBlockHeaderResponse
        cases hasked : fillPowHash && !v.restricted with
        | false => rw [hlength, hrow, hbefore]; rfl
        | true =>
          rw [hlength, hrow, hbefore, hpow (by simp_all)]
      dsimp only
      rw [hfill]

theorem get_of_sameText {text : String}
    (h : SameText E v v' fillPowHash text) :
    v.get E text fillPowHash = v'.get E text fillPowHash := by
  unfold NodeView.get
  cases hparse : E.parseHash256 text with
  | none => rfl
  | some hash => exact headerOf_of_sameBlock hrestricted (h hash hparse)

theorem mapM_get_of_same {texts : List String}
    (h : ∀ text ∈ texts, SameText E v v' fillPowHash text) :
    (texts.mapM fun text => v.get E text fillPowHash)
      = texts.mapM fun text => v'.get E text fillPowHash := by
  induction texts with
  | nil => rw [mapM_nil, mapM_nil]
  | cons text rest ih =>
    rw [mapM_cons, mapM_cons, get_of_sameText hrestricted (h text mem_cons_self),
      ih fun t ht => h t (mem_cons_of_mem _ ht)]

theorem onGetBlockHeaderByHash_of_same {q : BlockQuery}
    (h : SameQuery E v v' q .headerByHash) :
    v.onGetBlockHeaderByHash E q = v'.onGetBlockHeaderByHash E q := by
  obtain ⟨hone, hmany⟩ := h
  unfold NodeView.onGetBlockHeaderByHash
  rw [hrestricted, mapM_get_of_same hrestricted hmany]
  by_cases hempty : q.hash = ""
  · rw [if_pos hempty, if_pos hempty]
  · rw [get_of_sameText hrestricted (hone hempty)]

theorem onGetBlock_of_same {q : BlockQuery}
    (h : SameQuery E v v' q .block) : v.onGetBlock E q = v'.onGetBlock E q := by
  obtain ⟨hbyHash, hbyHeight⟩ := h
  unfold NodeView.onGetBlock
  by_cases hempty : q.hash = ""
  · obtain ⟨hlength, hrow, hblock⟩ := hbyHeight hempty
    rw [if_neg (not_not.mpr hempty), if_neg (not_not.mpr hempty), ← hrow, ← hlength]
    cases hfound : v.main[q.height]? with
    | none => rfl
    | some b =>
      exact congrArg (Body.ofExcept .block) (headerOf_of_sameBlock hrestricted (hblock b hfound))
  · rw [if_pos hempty, if_pos hempty, get_of_sameText hrestricted (hbyHash hempty)]

end

theorem answer_of_unaffected {m : LongMethod} {method params : String}
    (hlong : longMethod method = some m) (h : Unaffected E v v' m params) :
    v.answer E method params = v'.answer E method params := by
  obtain ⟨hrestricted, hsame⟩ := h
  unfold NodeView.answer
  rw [hlong]
  dsimp only
  cases hload : E.load m params with
  | none => rfl
  | some q =>
    have hq := hsame q hload
    cases m with
    | headerByHash => exact congrArg _ (onGetBlockHeaderByHash_of_same hrestricted hq)
    | block => exact congrArg _ (onGetBlock_of_same hrestricted hq)

end Unaffected

/-! ## Runs -/

section Runs

variable {H : Type} [DecidableEq H] (E : Env H)

/-- The nodes read the same for an answer as long as it is kept, and for a call of a long-lived
method when its answer is stored. A call answered from the cache is one of `/json_rpc`, and its
parameters load as those of the call that was stored. -/
def Steady (s : WorkerState H) : Event H → Prop
  | .chain i v' => ∀ method text m kept, longMethod method = some m →
      s.hit (.rpc method text) = some kept →
      ∀ v, s.origins[i]? = some v → Unaffected E v v' m kept.params
  | .request _ (.rpc uri method params) => ∀ m, longMethod method = some m →
      match s.hit (.rpc method (E.stringify params)) with
      | some kept => uri = "/json_rpc" ∧ E.load m params = E.load m kept.params
      | none => ∀ v ∈ s.origins, ∀ v' ∈ s.origins, Unaffected E v v' m params
  | _ => True

/-- An answer of a long-lived method that is kept is the one each node gives, and none is kept for a
path. -/
structure Agrees (s : WorkerState H) : Prop where
  rpc : ∀ {method text m kept}, longMethod method = some m → s.hit (.rpc method text) = some kept →
    ∀ v ∈ s.origins, v.answer E method kept.params = (200, kept.body)
  path : ∀ {name}, longMethod name ≠ none → s.cache.get? (.path name) = none

variable {E} {s s' : WorkerState H}

omit [DecidableEq H] in
theorem hit_eq_some_iff {key : Key} {kept : Kept H} :
    s.hit key = some kept ↔ s.cache.get? key = some kept ∧ s.now < kept.expires := by
  unfold WorkerState.hit
  cases s.cache.get? key with
  | none => simp
  | some k =>
    dsimp only
    split
    · rename_i hlive
      constructor
      · intro h
        cases h
        exact ⟨rfl, hlive⟩
      · rintro ⟨h, -⟩
        exact h
    · rename_i hlive
      constructor
      · intro h
        cases h
      · rintro ⟨h, hk⟩
        cases h
        exact absurd hk hlive

theorem cacheTtl_eq_iff {method : String} : cacheTtl method = 3600 ↔ longMethod method ≠ none := by
  constructor
  · intro h
    unfold cacheTtl at h
    split at h <;> first | exact absurd h (by decide) | decide
  · intro h
    unfold longMethod at h
    split at h <;> first | exact absurd rfl h | decide

variable {v : NodeView H}

theorem answer_status {m : LongMethod} {method params : String}
    (hlong : longMethod method = some m) : (v.answer E method params).1 = 200 := by
  unfold NodeView.answer
  rw [hlong]
  dsimp only
  cases E.load m params with
  | none => rfl
  | some q => cases m <;> rfl

theorem answer_congr {m : LongMethod} {method params params' : String}
    (hlong : longMethod method = some m) (h : E.load m params = E.load m params') :
    v.answer E method params = v.answer E method params' := by
  unfold NodeView.answer
  rw [hlong]
  dsimp only
  rw [h]

variable {r : Request}

omit [DecidableEq H] in
theorem key_rpc {method text : String} {ttl : Nat}
    (h : r.key E = some (.rpc method text, ttl)) :
    ∃ uri params, r = .rpc uri method params ∧ text = E.stringify params := by
  cases r with
  | rpc uri method' params =>
    unfold Request.key at h
    dsimp only at h
    split at h
    · cases h
      exact ⟨uri, params, rfl, rfl⟩
    · cases h
  | path name query =>
    unfold Request.key at h
    dsimp only at h
    split at h <;> cases h

omit [DecidableEq H] in
theorem key_path {name : String} {ttl : Nat} (h : r.key E = some (.path name, ttl)) :
    ∃ query, r = .path name query := by
  cases r with
  | rpc uri method params =>
    unfold Request.key at h
    dsimp only at h
    split at h <;> cases h
  | path name' query =>
    unfold Request.key at h
    dsimp only at h
    split at h
    · cases h
      exact ⟨query, rfl⟩
    · cases h

def Key.method : Key → String
  | .rpc method _ => method
  | .path name => name

omit [DecidableEq H] in
theorem key_ttl {key : Key} {ttl : Nat} (h : r.key E = some (key, ttl)) :
    cacheTtl key.method = ttl := by
  cases r <;>
  · unfold Request.key at h
    dsimp only at h
    split at h
    · cases h
      rfl
    · cases h

theorem reply_rpc {uri method params : String} {status : Nat} {body : Body H}
    (h : v.reply E (.rpc uri method params) = (status, body)) (hstatus : status < 400) :
    v.answer E method params = (status, body) := by
  unfold NodeView.reply at h
  dsimp only at h
  split at h
  · exact h
  · cases h
    exact absurd hstatus (by decide)

theorem reply_path {name query : String} {status : Nat} {body : Body H}
    (h : v.reply E (.path name query) = (status, body)) (hname : longMethod name ≠ none) :
    status = 404 := by
  unfold NodeView.reply at h
  dsimp only at h
  rw [if_neg hname] at h
  cases h
  rfl

theorem passThrough_mem {up : List Bool} {reply : Nat × Body H}
    (h : s.passThrough E up r = some reply) : ∃ v ∈ s.origins, v.reply E r = reply := by
  have hmem := mem_of_find?_eq_some h
  rw [mem_filterMap] at hmem
  obtain ⟨⟨v, isUp⟩, hzip, hreply⟩ := hmem
  split at hreply
  · exact ⟨v, (of_mem_zip hzip).1, Option.some.inj hreply⟩
  · cases hreply

theorem Agrees.wait {seconds : Nat} (h : Agrees E s) :
    Agrees E { s with now := s.now + seconds } where
  rpc := by
    intro method text m kept hlong hhit
    obtain ⟨hget, hlive⟩ := hit_eq_some_iff.mp hhit
    exact h.rpc hlong (hit_eq_some_iff.mpr ⟨hget, by dsimp only at hlive; omega⟩)
  path := h.path

theorem Agrees.evict {key : Key} (h : Agrees E s) :
    Agrees E { s with cache := s.cache.erase key } where
  rpc := by
    intro method text m kept hlong hhit
    obtain ⟨hget, hlive⟩ := hit_eq_some_iff.mp hhit
    by_cases hkey : Key.rpc method text = key
    · rw [hkey, get?_erase_self] at hget
      cases hget
    · rw [get?_erase_ne _ hkey] at hget
      exact h.rpc hlong (hit_eq_some_iff.mpr ⟨hget, hlive⟩)
  path := by
    intro name hname
    by_cases hkey : Key.path name = key
    · rw [← hkey]
      exact get?_erase_self _ _
    · rw [get?_erase_ne _ hkey]
      exact h.path hname

theorem Agrees.chain {i : Nat} {v' : NodeView H} (h : Agrees E s)
    (hsteady : Steady E s (.chain i v')) :
    Agrees E { s with origins := s.origins.set i v' } where
  rpc := by
    intro method text m kept hlong hhit w hw
    have hhit' : s.hit (.rpc method text) = some kept := hhit
    by_cases hi : i < s.origins.length
    · rcases mem_or_eq_of_mem_set hw with hold | rfl
      · exact h.rpc hlong hhit' w hold
      · -- the node that changed reads the same for what is kept
        have hold : s.origins[i]? = some s.origins[i] := getElem?_eq_getElem hi
        rw [← answer_of_unaffected hlong (hsteady method text m kept hlong hhit' _ hold)]
        exact h.rpc hlong hhit' _ (getElem_mem hi)
    · rw [set_eq_of_length_le (Nat.le_of_not_lt hi)] at hw
      exact h.rpc hlong hhit' w hw
  path := h.path

theorem Agrees.store {up : List Bool} {key : Key} {ttl : Nat} (h : Agrees E s)
    (hsteady : Steady E s (.request up r)) (hkey : r.key E = some (key, ttl))
    (hmiss : s.hit key = none) :
    Agrees E (s.store key ttl r.params (s.passThrough E up r)) := by
  cases hpass : s.passThrough E up r with
  | none => exact h
  | some reply =>
    obtain ⟨status, body⟩ := reply
    unfold WorkerState.store
    dsimp only
    split
    · rename_i hstatus
      obtain ⟨w, hw, hreply⟩ := passThrough_mem hpass
      refine ⟨?_, ?_⟩
      · intro method text m kept hlong hhit v hv
        obtain ⟨hget, hlive⟩ := hit_eq_some_iff.mp hhit
        by_cases hsame : Key.rpc method text = key
        · subst hsame
          obtain ⟨uri, params, rfl, rfl⟩ := key_rpc hkey
          rw [get?_set_self] at hget
          cases hget
          have hall := hsteady m hlong
          rw [hmiss] at hall
          have hanswer := reply_rpc hreply hstatus
          have hok : status = 200 := by rw [← answer_status (v := w) hlong, hanswer]
          change v.answer E method params = (200, body)
          rw [← answer_of_unaffected hlong (hall w hw v hv), hanswer, hok]
        · rw [get?_set_ne _ _ hsame] at hget
          exact h.rpc hlong (hit_eq_some_iff.mpr ⟨hget, hlive⟩) v hv
      · intro name hname
        by_cases hsame : Key.path name = key
        · subst hsame
          obtain ⟨query, rfl⟩ := key_path hkey
          exact absurd (reply_path hreply hname) (by omega)
        · rw [get?_set_ne _ _ hsame]
          exact h.path hname
    · exact h

theorem Agrees.step {e : Event H} (h : Agrees E s) (hsteady : Steady E s e)
    (hstep : (workers E).step s e = some s') : Agrees E s' := by
  change workerStep E s e = some s' at hstep
  unfold workerStep at hstep
  cases e with
  | wait seconds =>
    cases hstep
    exact h.wait
  | evict key =>
    cases hstep
    exact h.evict
  | chain i v' =>
    cases hstep
    exact h.chain hsteady
  | request up r =>
    dsimp only at hstep
    split at hstep
    · cases hstep
      exact h
    · rename_i key ttl hkey
      split at hstep
      · cases hstep
        exact h
      · rename_i hmiss
        cases hstep
        exact h.store hsteady hkey hmiss

theorem Agrees.start (origins : List (NodeView H)) : Agrees E (WorkerState.start origins) where
  rpc := by
    intro method text m kept _ hhit
    cases (hit_eq_some_iff.mp hhit).1
  path := fun _ => rfl

/-- In a run whose steps are steady, a call that is answered from the cache with an answer that is
kept for an hour gets what each of the nodes would answer to it. -/
theorem long_lived_replies_of_run {origins : List (NodeView H)} {events : List (Event H)}
    (hrun : (workers E).Meets (Steady E) (WorkerState.start origins) events)
    (hexec : (workers E).exec (WorkerState.start origins) events = some s)
    {up : List Bool} {r : Request} {key : Key} {kept : Kept H}
    (hsteady : Steady E s (.request up r)) (hkey : r.key E = some (key, 3600))
    (hhit : s.hit key = some kept) : ∀ v ∈ s.origins, v.reply E r = (200, kept.body) := by
  have hagrees : Agrees E s :=
    (workers E).invariant_of_meets Agrees.step (Agrees.start origins) hrun hexec
  cases key with
  | rpc method text =>
    obtain ⟨uri, params, rfl, rfl⟩ := key_rpc hkey
    have hlong : longMethod method ≠ none := cacheTtl_eq_iff.mp (key_ttl hkey)
    obtain ⟨m, hlong⟩ := Option.ne_none_iff_exists'.mp hlong
    have hcall := hsteady m hlong
    rw [hhit] at hcall
    obtain ⟨rfl, hload⟩ := hcall
    intro v hv
    rw [NodeView.reply, if_pos rfl, answer_congr hlong hload]
    exact hagrees.rpc hlong hhit v hv
  | path name =>
    have hlong : longMethod name ≠ none := cacheTtl_eq_iff.mp (key_ttl hkey)
    have hnone := hagrees.path hlong
    rw [(hit_eq_some_iff.mp hhit).1] at hnone
    cases hnone

end Runs

/-! ## A header by hash -/

section Sample

/-- Parameters that are the text of a hash, without a proof of work. -/
def sampleEnv : Env Nat where
  parseHash256 := fun text => match text with
    | "genesis" => some 0
    | "first" => some 1
    | "second" => some 2
    | "rival" => some 3
    | _ => none
  longhash := fun _ _ _ => ""
  load := fun _ text => some { hash := text }
  stringify := fun text => text
  other := fun _ _ _ => (200, .other "")

def sampleData (height : Nat) (txHashes : List String) : BlockData where
  majorVersion := 1
  minorVersion := 1
  timestamp := height
  prevHash := ""
  nonce := 0
  coinbaseHeight := some height
  reward := 0
  txHashes := txHashes
  minerTxHash := ""
  blob := ""
  json := ""

def sampleMain (height : Nat) : MainBlock Nat where
  hash := height
  data := sampleData height []
  cumulativeDifficulty := height + 1
  weight := 80
  longTermWeight := 80

def sampleNode : NodeView Nat where
  main := [sampleMain 0, sampleMain 1]
  alts := Dict.empty
  restricted := true

def sampleNodeRival : NodeView Nat :=
  { sampleNode with alts := sampleNode.alts.set 3 (sampleData 1 ["tx"]) }

def sampleNodeGrown : NodeView Nat := { sampleNode with main := sampleNode.main ++ [sampleMain 2] }

def sampleRequest : Request := .rpc "/json_rpc" "get_block_header_by_hash" "first"

def sampleKept (v : NodeView Nat) : Kept Nat where
  body := (v.reply sampleEnv sampleRequest).2
  expires := 3600
  params := "first"

theorem sampleNodeRival_unaffected :
    Unaffected sampleEnv sampleNode sampleNodeRival .headerByHash "first" := by
  refine ⟨rfl, ?_⟩
  rintro q ⟨⟩
  refine ⟨fun _ hash hparse => ?_, fun text htext => by cases htext⟩
  cases hparse
  refine ⟨by decide, ?_⟩
  intro data orphan height hfound hheight
  exact ⟨rfl, rfl, rfl, fun _ => rfl⟩

def sampleKey : Key := .rpc "get_block_header_by_hash" "first"

def sampleStored : WorkerState Nat where
  origins := [sampleNode]
  cache := Dict.empty.set sampleKey (sampleKept sampleNode)

theorem sampleStored_steady : Steady sampleEnv sampleStored (.chain 0 sampleNodeRival) := by
  intro method text m kept hlong hhit v hv
  obtain ⟨hget, -⟩ := hit_eq_some_iff.mp hhit
  by_cases hkey : Key.rpc method text = sampleKey
  · cases hkey
    cases hlong
    cases hv
    rw [show Key.rpc "get_block_header_by_hash" "first" = sampleKey from rfl] at hget
    cases (get?_set_self _ _ _).symm.trans hget
    exact sampleNodeRival_unaffected
  · cases (get?_set_ne _ _ hkey).symm.trans hget

theorem long_lived_replies_of_run_sample :
    sampleNodeRival.reply sampleEnv sampleRequest = (200, (sampleKept sampleNode).body) := by
  have hfirst : Steady sampleEnv (WorkerState.start [sampleNode])
      (.request [true] sampleRequest) := by
    intro m hlong
    cases hlong
    intro v hv v' hv'
    obtain rfl := mem_singleton.mp hv
    obtain rfl := mem_singleton.mp hv'
    refine ⟨rfl, fun q hq => ?_⟩
    cases hq
    exact ⟨fun _ _ _ => ⟨rfl, fun _ _ _ _ _ => ⟨rfl, rfl, rfl, fun _ => rfl⟩⟩,
      fun text htext => by cases htext⟩
  have hstored : (workers sampleEnv).step (WorkerState.start [sampleNode])
      (.request [true] sampleRequest) = some sampleStored := rfl
  have hrun : (workers sampleEnv).Meets (Steady sampleEnv) (WorkerState.start [sampleNode])
      [.request [true] sampleRequest, .chain 0 sampleNodeRival] := by
    refine ⟨hfirst, fun s' hs' => ?_⟩
    rw [hstored] at hs'
    cases hs'
    exact ⟨sampleStored_steady, fun _ _ => trivial⟩
  have hagain : Steady sampleEnv { sampleStored with origins := [sampleNodeRival] }
      (.request [true] sampleRequest) := fun m _ => ⟨rfl, rfl⟩
  have hkey : sampleRequest.key sampleEnv = some (sampleKey, 3600) := by decide
  have hhit : { sampleStored with origins := [sampleNodeRival] }.hit sampleKey
      = some (sampleKept sampleNode) := by decide
  exact long_lived_replies_of_run hrun rfl hagain hkey hhit sampleNodeRival mem_cons_self

/-- A block is mined a minute after the header was asked for: the depth of the block in the reply is
still 0. -/
theorem cached_header_is_stale :
    ∃ s kept, (workers sampleEnv).exec (WorkerState.start [sampleNode])
        [.request [true] sampleRequest, .wait 60, .chain 0 sampleNodeGrown] = some s
      ∧ sampleRequest.key sampleEnv = some (sampleKey, 3600) ∧ s.hit sampleKey = some kept
      ∧ s.passThrough sampleEnv [true] sampleRequest ≠ some (200, kept.body) := by
  refine ⟨_, sampleKept sampleNode, rfl, ?_, ?_, ?_⟩
  · decide
  · decide
  · decide

end Sample

end Glaciem.Rpc
