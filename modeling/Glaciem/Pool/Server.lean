import Glaciem.Pool.NonceOffset
import Glaciem.Pool.Reconcile
import Glaciem.Lib.System

/-!
# Glaciem — the pool server as a transition system

The threads of `pool/server/pool-server.py` that touch the ledger, one step for each section the
source runs without giving way: the `/pool/job` and `/pool/submit` handlers, the `submit_block` that
follows a full-block share, `refresh_job`, the reconciler, a process restart, and the operator's
tool that writes the sponsorship file.

* A handler is a `Phase`: where it stands and what it carries in local variables.
* `STATE_LOCK` is held across steps only by a settlement (`stateLock`); every other section under
  the lock is one step, enabled while the lock is free. `_hard_lock` sections are single steps. File
  operations of a settlement are steps of their own, since the reconciler, which takes no lock, can
  run between them.
* A save of the credits file is two steps: the temporary file is opened, then written and renamed.
  `append_credits` and the reconciler use one name for it. From a moment at which both have it open
  until neither has (`TempFile.clash`), the file may come to hold any of the rows in play, or read
  as empty (`Label.torn`).
* What a step cannot know is in its label: the clock, the verdict of the proof-of-work library, the
  daemon's and the wallet's answers, and whether a file operation fails.
* `History` is proof-only. No section reads it, except to number a settlement.
-/

namespace Glaciem.Pool

/-! ## Data -/

/-- The fields of a job that never change (`refresh_job`). A blob is `none` when the daemon's
hex does not decode. -/
structure Template where
  jobId : String
  blockhashingBlob : Option (List UInt8)
  blocktemplateBlob : Option (List UInt8)
  seedHash : String
  height : Nat
  networkDifficulty : Nat
  shareDifficulty : Nat

structure Job where
  template : Template
  submissions : List String

structure Rejects where
  rateLimit : Nat := 0
  staleJob : Nat := 0
  duplicate : Nat := 0
  invalidShare : Nat := 0
  badRequest : Nat := 0
  banned : Nat := 0
  staleAgainstOldJob : Nat := 0

structure PoolStats where
  sharesTotal : Nat := 0
  blocksTotal : Nat := 0
  currentRoundShares : Nat := 0
  submitsTotal : Nat := 0
  orphanDedupes : Nat := 0
  rejects : Rejects := {}

structure Hardening where
  bans : List String := []
  banTime : Dict String ℚ := Dict.empty
  badCount : Dict String Nat := Dict.empty
  lastAcc : Dict String ℚ := Dict.empty

structure ShareRecord where
  job : Nat
  nonce : UInt32
  wallet : String
  deriving DecidableEq

/-- What a settlement saw and computed. `shares` are the wallets' `shares_this_round`. -/
structure SettlementRecord where
  block : BlockRow
  bonus : Int
  entries : List CreditEntry
  shares : List (String × Nat)
  deriving DecidableEq

structure History where
  shares : List ShareRecord := []
  settlements : List SettlementRecord := []
  appended : List CreditEntry := []
  phantoms : List CreditEntry := []

/-- Who has the temporary file of the credits file open: the settlement, which holds `STATE_LOCK`,
and the reconciler. `clash` says that both had it open at once, and that one still has. -/
structure TempFile where
  settlement : Bool := false
  reconciler : Bool := false
  clash : Bool := false

def TempFile.setSettlement (f : TempFile) (saving : Bool) : TempFile :=
  { f with settlement := saving
           clash := if saving then f.clash || f.reconciler else f.clash && f.reconciler }

def TempFile.setReconciler (f : TempFile) (saving : Bool) : TempFile :=
  { f with reconciler := saving
           clash := if saving then f.clash || f.settlement else f.clash && f.settlement }

/-- What the threads share. Job objects live in `jobs` and are referred to by their position; jobs
evicted from `recent_jobs` stay there, since a handler may still hold them. -/
structure Shared where
  jobs : List Job := []
  currentJob : Option Nat := none
  recentJobs : Dict String Nat := Dict.empty
  settledHeights : List Nat := []
  minerStats : Dict String MinerStats := Dict.empty
  stats : PoolStats := {}
  hard : Hardening := {}
  stateLock : Option Nat := none
  credits : List CreditEntry := []
  tmp : TempFile := {}
  blocks : List BlockRow := []
  sponsorship : Option Sponsorship := none
  log : History := {}

/-- The `job_id` of a request body: missing or falsy, a string, another value that can be a
dictionary key, or one that cannot. -/
inductive JobKey where
  | falsy
  | text (id : String)
  | otherKey
  | unhashable

/-- The body of a `/pool/submit` request. `malformed` is a body that is not a JSON object, with
the text of the exception. -/
inductive SubmitBody where
  | malformed (error : String)
  | fields (jobId : JobKey) (wallet : Option String) (nonce : Option Int) (fullBlock : Bool)

structure Request where
  jobId : JobKey
  wallet : String
  nonce : UInt32
  fullBlock : Bool
  now : ℚ

structure Ticket where
  job : Nat
  template : Template
  wallet : String
  nonce : UInt32
  fullBlock : Bool
  now : ℚ

inductive Reply where
  | error (status : Nat) (message : String)
  | refused (status : Nat) (reason : String)
  | accepted
  | noBlock (reason : String)
  | block
  | job (template : Template)

inductive Phase where
  | jobReceived (wallet : Option String)
  | jobAdmitted (wallet : String)
  | received (body : SubmitBody)
  | counted (body : SubmitBody)
  | badRequest (message : String)
  | validated (req : Request)
  | admitted (req : Request)
  | verifying (t : Ticket)
  | outdated
  | struck (wallet : String)
  | strikeCounted
  | valid (t : Ticket)
  | credited (t : Ticket)
  | submitting (t : Ticket)
  | accepted (t : Ticket)
  | rewarded (t : Ticket) (reward : Nat)
  | found (t : Ticket) (block : BlockRow)
  | appending (block : BlockRow) (entries : List CreditEntry)
  | appendLoaded (block : BlockRow) (entries arr : List CreditEntry)
  | appendSaving (block : BlockRow) (entries arr : List CreditEntry)
  | settled (block : BlockRow)
  | blockLoading (block : BlockRow)
  | blockLoaded (block : BlockRow) (arr : List BlockRow)
  | done (reply : Reply)

inductive SubmitReply where
  | ok
  | rejected (result : String)
  | rpcError (error : String)

/-- `dataset` is the proof-of-work check of the dataset for the job's seed, `none` when the library
or the dataset is missing. -/
structure Env where
  now : ℚ := 0
  dataset : Option (List UInt8 → Nat → Bool) := none
  submitReply : SubmitReply := .ok
  reward : Option Nat := none
  loadOk : Bool := true
  saveOk : Bool := true

/-! ## Helpers of the handlers -/

variable (cfg : Config)

def isBanned (now : ℚ) (hard : Hardening) (wallet : String) : Bool × Hardening :=
  if wallet ∉ hard.bans then (false, hard)
  else if now - (hard.banTime.get? wallet).getD 0 ≥ cfg.invalidShareBanSec then
    (false, { hard with
      bans := hard.bans.filter (fun w => w ≠ wallet)
      banTime := hard.banTime.erase wallet
      badCount := hard.badCount.set wallet 0 })
  else (true, hard)

/-- The section that counts an invalid share against its wallet, and bans it at the
threshold. -/
def strike (now : ℚ) (hard : Hardening) (wallet : String) : Hardening :=
  let bad := (hard.badCount.get? wallet).getD 0 + 1
  let hard := { hard with badCount := hard.badCount.set wallet bad }
  if bad ≥ cfg.invalidShareBanAt then
    { hard with
      bans := if wallet ∈ hard.bans then hard.bans else wallet :: hard.bans
      banTime := hard.banTime.set wallet now }
  else hard

def noteAccepted (now : ℚ) (hard : Hardening) (wallet : String) : Hardening :=
  { hard with
    lastAcc := hard.lastAcc.set wallet now
    badCount := if (hard.badCount.get? wallet).getD 0 > 0 then hard.badCount.set wallet 0
      else hard.badCount }

def dedupeKey (wallet : String) (nonce : UInt32) : String := wallet ++ ":" ++ toString nonce.toNat

def maskNonce (nonce : Int) : UInt32 := UInt32.ofNat (nonce % 2 ^ 32).toNat

def Shared.submissions (c : Shared) (job : Nat) : List String :=
  ((c.jobs[job]?).map Job.submissions).getD []

variable (c : Shared)

def Shared.addSubmission (job : Nat) (key : String) : Shared :=
  { c with jobs := c.jobs.modify job (fun j => { j with submissions := key :: j.submissions }) }

/-- `verify_share_against_job`: without library or dataset every share passes. -/
def verifyShareAgainstJob (dataset : Option (List UInt8 → Nat → Bool)) (template : Template)
    (nonce : UInt32) : Bool :=
  match dataset with
  | none => true
  | some check =>
    match template.blockhashingBlob with
    | none => false
    | some blob =>
      match verifyShareInput blob nonce with
      | none => false
      | some input => check input template.shareDifficulty

def creditShare (wallet : String) : Shared :=
  let s := (c.minerStats.get? wallet).getD {}
  { c with
    minerStats := c.minerStats.set wallet
      { s with sharesTotal := s.sharesTotal + 1, sharesThisRound := s.sharesThisRound + 1 }
    stats := { c.stats with
      sharesTotal := c.stats.sharesTotal + 1
      currentRoundShares := c.stats.currentRoundShares + 1 } }

def recordShare (t : Ticket) : Shared :=
  let c := creditShare (c.addSubmission t.job (dedupeKey t.wallet t.nonce)) t.wallet
  { c with log := { c.log with shares := c.log.shares ++ [⟨t.job, t.nonce, t.wallet⟩] } }

def resetRound : Shared :=
  { c with
    minerStats := c.minerStats.mapValues (fun s => { s with sharesThisRound := 0 })
    stats := { c.stats with currentRoundShares := 0 } }

def countBlock (finder : String) (block : BlockRow) : Shared :=
  { c with
    settledHeights := block.height :: c.settledHeights
    stats := { c.stats with blocksTotal := c.stats.blocksTotal + 1 }
    minerStats := match c.minerStats.get? finder with
      | none => c.minerStats
      | some s => c.minerStats.set finder { s with blocksFound := s.blocksFound + 1 } }

/-- What `settle_round` leaves before `append_credits`: the fund file, and the record of the
settlement. -/
def noteSettlement (block : BlockRow) (S : Settlement) (fund : Option Sponsorship) : Shared :=
  let record : SettlementRecord :=
    { block := block, bonus := S.bonus, entries := S.entries,
      shares := c.minerStats.items.map (fun item => (item.1, item.2.sharesThisRound)) }
  { c with
    sponsorship := fund
    log := { c.log with settlements := c.log.settlements ++ [record] } }

def Shared.reject (count : Rejects → Rejects) : Shared :=
  { c with stats := { c.stats with rejects := count c.stats.rejects } }

/-- A section under `STATE_LOCK` runs only while no settlement holds the lock. -/
def Shared.locked (body : Shared × Phase) : Option (Shared × Phase) :=
  if c.stateLock = none then some body else none

/-! ## The sections of a handler -/

/-- The validation at the start of `_handle_submit`, up to reading the clock. -/
def validate (now : ℚ) : SubmitBody → Phase
  | .malformed error => .done (.error 500 error)
  | .fields .falsy _ _ _ => .badRequest "job_id and nonce required"
  | .fields _ _ none _ => .badRequest "job_id and nonce required"
  | .fields jobId wallet (some nonce) fullBlock =>
    match wallet with
    | none => .badRequest "invalid wallet address"
    | some wallet =>
      if isValidWallet wallet then
        .validated { jobId := jobId, wallet := wallet, nonce := maskNonce nonce,
                     fullBlock := fullBlock, now := now }
      else .badRequest "invalid wallet address"

def hardCheck (env : Env) (c : Shared) (req : Request) : Option (Shared × Phase) :=
  let (banned, hard) := isBanned cfg env.now c.hard req.wallet
  let c := { c with hard := hard }
  if banned then
    c.locked (c.reject (fun r => { r with banned := r.banned + 1 }),
      .done (.error 403 "wallet banned for repeated invalid shares"))
  else if req.now - (hard.lastAcc.get? req.wallet).getD 0 < 1 / cfg.maxSharesPerSec then
    c.locked (c.reject (fun r => { r with rateLimit := r.rateLimit + 1 }),
      .done (.refused 429 "rate limit"))
  else some (c, .admitted req)

def duplicateCheck (req : Request) : Shared × Phase :=
  let stale := (c.reject (fun r => { r with staleJob := r.staleJob + 1 }),
    Phase.done (.refused 200 "stale job"))
  match req.jobId with
  | .unhashable => (c, .done (.error 500 "unhashable type"))
  | .falsy | .otherKey => stale
  | .text id =>
    match c.recentJobs.get? id with
    | none => stale
    | some ref =>
      match c.jobs[ref]? with
      | none => stale
      | some job =>
        if dedupeKey req.wallet req.nonce ∈ job.submissions then
          (c.reject (fun r => { r with duplicate := r.duplicate + 1 }),
            .done (.refused 200 "duplicate"))
        else
          (c, .verifying { job := ref, template := job.template, wallet := req.wallet,
                           nonce := req.nonce, fullBlock := req.fullBlock, now := req.now })

def Shared.currentTop : Option String :=
  (c.currentJob.bind (fun ref => c.jobs[ref]?)).map (fun job => job.template.jobId)

def verifyShare (env : Env) (c : Shared) (t : Ticket) : Phase :=
  if verifyShareAgainstJob env.dataset t.template t.nonce then .valid t
  else if some t.template.jobId ≠ c.currentTop then .outdated
  else .struck t.wallet

/-- The first part of `submit_block`: splice the nonce in and ask the daemon. -/
def submitToDaemon (env : Env) (t : Ticket) : Phase :=
  match t.template.blocktemplateBlob, t.template.blockhashingBlob with
  | some tb, some hb =>
    match submitBlockBlob tb hb t.nonce with
    | none => .done (.noBlock "nonce offset OOB")
    | some _ =>
      match env.submitReply with
      | .ok => .accepted t
      | .rejected result => .done (.noBlock ("daemon rejected: " ++ result))
      | .rpcError error => .done (.noBlock error)
  | _, _ => .done (.noBlock "non-hexadecimal number found in fromhex() arg")

/-- The settled-height guard, the bookkeeping, and `settle_round` up to `append_credits`. When
saving the sponsorship file raises, the section is left and the lock released. -/
def enterSettlement (env : Env) (i : Nat) (c : Shared) (t : Ticket)
    (block : BlockRow) : Shared × Phase :=
  if block.height ∈ c.settledHeights then
    ({ c with stats := { c.stats with orphanDedupes := c.stats.orphanDedupes + 1 } }, .done .block)
  else
    let c := countBlock c t.wallet block
    match settleRound cfg ⟨env.loadOk, env.saveOk⟩ c.log.settlements.length block c.minerStats
        c.sponsorship with
    | none => (c, .done (.noBlock "sponsorship file save failed"))
    | some (S, fund) =>
      ({ noteSettlement c block S fund with stateLock := some i },
        if S.entries = [] then .settled block else .appending block S.entries)

/-- One section of handler `i`; `none` while it waits for `STATE_LOCK`, and when it is done. -/
def advance (env : Env) (i : Nat) (c : Shared) :
    Phase → Option (Shared × Phase)
  | .jobReceived none => some (c, .done (.error 400 "invalid wallet address"))
  | .jobReceived (some wallet) =>
    if isValidWallet wallet then
      let (banned, hard) := isBanned cfg env.now c.hard wallet
      some ({ c with hard := hard },
        if banned then .done (.error 403 "wallet banned for repeated invalid shares")
        else .jobAdmitted wallet)
    else some (c, .done (.error 400 "invalid wallet address"))
  | .jobAdmitted wallet =>
    match c.currentJob.bind (fun ref => c.jobs[ref]?) with
    | none => c.locked (c, .done (.error 503 "pool warming up; retry in a moment"))
    | some job =>
      c.locked ({ c with minerStats := match c.minerStats.get? wallet with
          | some _ => c.minerStats
          | none => c.minerStats.set wallet {} }, .done (.job job.template))
  | .received body =>
    c.locked ({ c with stats := { c.stats with submitsTotal := c.stats.submitsTotal + 1 } },
      .counted body)
  | .counted body => some (c, validate env.now body)
  | .badRequest message =>
    c.locked (c.reject (fun r => { r with badRequest := r.badRequest + 1 }),
      .done (.error 400 message))
  | .validated req => hardCheck cfg env c req
  | .admitted req => c.locked (duplicateCheck c req)
  | .verifying t => some (c, verifyShare env c t)
  | .outdated =>
    c.locked (c.reject (fun r => { r with staleAgainstOldJob := r.staleAgainstOldJob + 1 }),
      .done (.refused 200 "stale -- newer job available"))
  | .struck wallet => some ({ c with hard := strike cfg env.now c.hard wallet }, .strikeCounted)
  | .strikeCounted =>
    c.locked (c.reject (fun r => { r with invalidShare := r.invalidShare + 1 }),
      .done (.refused 200 "invalid share"))
  | .valid t => c.locked (recordShare c t, .credited t)
  | .credited t =>
    some ({ c with hard := noteAccepted t.now c.hard t.wallet },
      if t.fullBlock then .submitting t else .done .accepted)
  | .submitting t => some (c, submitToDaemon env t)
  | .accepted t => some (c, .rewarded t (env.reward.getD 0))
  -- `round_shares` is read here, without the lock
  | .rewarded t reward => some (c, .found t ⟨t.template.height, reward, c.stats.currentRoundShares⟩)
  | .found t block => c.locked (enterSettlement cfg env i c t block)
  -- `append_credits`: the load, then the save
  | .appending block entries =>
    some (c, if env.loadOk then .appendLoaded block entries c.credits else .settled block)
  | .appendLoaded block entries arr =>
    if env.saveOk then
      some ({ c with tmp := c.tmp.setSettlement true }, .appendSaving block entries arr)
    else some (c, .settled block)
  | .appendSaving block entries arr =>
    let c := { c with tmp := c.tmp.setSettlement false }
    some (if env.saveOk then
        { c with credits := arr ++ entries
                 log := { c.log with appended := c.log.appended ++ entries } }
      else c, .settled block)
  | .settled block => some (resetRound c, .blockLoading block)
  -- `append_block`: the load, then the replace
  | .blockLoading block =>
    if env.loadOk then some (c, .blockLoaded block c.blocks)
    else some ({ c with stateLock := none }, .done .block)
  | .blockLoaded block arr =>
    some ({ c with
      blocks := if env.saveOk then (block :: arr).take 200 else c.blocks
      stateLock := none }, .done .block)
  | .done _ => none

/-! ## The other threads -/

structure TemplateReply where
  token : String
  blockhashingBlob : Option (List UInt8)
  blocktemplateBlob : Option (List UInt8)
  seedHash : String
  height : Nat
  difficulty : Nat

/-- `refresh_job`. Dividing by a zero divisor raises, and the old job stays. -/
def refreshJob (r : TemplateReply) : Shared :=
  if cfg.shareDiffDivisor = 0 then c
  else
    let job : Job :=
      { template :=
          { jobId := "j_" ++ r.token, blockhashingBlob := r.blockhashingBlob,
            blocktemplateBlob := r.blocktemplateBlob, seedHash := r.seedHash, height := r.height,
            networkDifficulty := r.difficulty,
            shareDifficulty := max 1 (r.difficulty / cfg.shareDiffDivisor) }
        submissions := [] }
    let recent := c.recentJobs.set job.template.jobId c.jobs.length
    { c with
      jobs := c.jobs ++ [job]
      currentJob := some c.jobs.length
      recentJobs := recent.dropOldest (recent.items.length - cfg.maxRecentJobs) }

inductive ReconcilerPhase where
  | idle
  | loaded (transfers : List Transfer) (walletH : Nat) (credits : List CreditEntry)
  | saving (transfers : List Transfer) (walletH : Nat) (credits : List CreditEntry)
  | blocksDue (transfers : List Transfer) (walletH : Nat)
  | blocksLoaded (transfers : List Transfer) (walletH : Nat) (blocks : List BlockRow)

structure ReconcilerEnv where
  transfers : Option (List Transfer) := none
  height : Option Nat := none
  loadOk : Bool := true
  saveOk : Bool := true

/-- The wallet's answers and the load, the decisions and the save, and the same for the block list.
A save that raises ends the pass. The rows it drops are on record when it is through with them. -/
def reconcilerAdvance (env : ReconcilerEnv) (c : Shared) :
    ReconcilerPhase → Shared × ReconcilerPhase
  | .idle =>
    match env.transfers with
    | none => (c, .idle)
    | some ts => (c, .loaded ts (env.height.getD 0) (loadJsonFile env.loadOk c.credits []))
  | .loaded ts walletH credits =>
    let o := reconcileCredits cfg (arrivedOf ts) walletH credits
    let noted := { c with log := { c.log with phantoms := c.log.phantoms ++ o.dropped } }
    if o.writes then
      if env.saveOk then
        ({ c with tmp := c.tmp.setReconciler true }, .saving ts walletH credits)
      else (noted, .idle)
    else (noted, .blocksDue ts walletH)
  | .saving ts walletH credits =>
    let o := reconcileCredits cfg (arrivedOf ts) walletH credits
    let c := { c with tmp := c.tmp.setReconciler false
                      log := { c.log with phantoms := c.log.phantoms ++ o.dropped } }
    if env.saveOk then ({ c with credits := o.kept }, .blocksDue ts walletH) else (c, .idle)
  | .blocksDue ts walletH =>
    (c, .blocksLoaded ts walletH (loadJsonFile env.loadOk c.blocks []))
  | .blocksLoaded ts walletH blocks =>
    let kept := reconcileBlocks cfg (arrivedOf ts) walletH [] blocks
    ({ c with blocks := if kept.length ≠ blocks.length ∧ env.saveOk then kept else c.blocks },
      .idle)

/-- Only the files survive, and `main` primes the settled-height guard from them. The history and
the heap of job objects are kept for the record. -/
def restart (creditsOk blocksOk : Bool) (c : Shared) : Shared :=
  { jobs := c.jobs
    credits := c.credits
    blocks := c.blocks
    sponsorship := c.sponsorship
    log := c.log
    settledHeights := (loadJsonFile creditsOk c.credits []).map CreditEntry.height
      ++ (loadJsonFile blocksOk c.blocks []).map BlockRow.height }

/-! ## The system -/

structure State where
  shared : Shared := {}
  handlers : List Phase := []
  reconciler : ReconcilerPhase := .idle

/-- The rows a thread may still write. -/
def Phase.rows : Phase → List CreditEntry
  | .appending _ entries => entries
  | .appendLoaded _ entries arr | .appendSaving _ entries arr => arr ++ entries
  | _ => []

def ReconcilerPhase.rows : ReconcilerPhase → List CreditEntry
  | .loaded _ _ credits | .saving _ _ credits => credits
  | _ => []

def State.rowsInPlay (s : State) : List CreditEntry :=
  s.shared.credits ++ s.handlers.flatMap Phase.rows ++ s.reconciler.rows

inductive Label where
  | refresh (r : TemplateReply)
  | jobRequest (wallet : Option String)
  | request (body : SubmitBody)
  | handler (i : Nat) (env : Env)
  | reconcile (env : ReconcilerEnv)
  | torn (rows : List CreditEntry)
  | fund (fund : Option Sponsorship)
  | restart (creditsOk blocksOk : Bool)

def poolStep (s : State) : Label → Option State
  | .refresh r =>
    if s.shared.stateLock = none then some { s with shared := refreshJob cfg s.shared r } else none
  | .jobRequest wallet => some { s with handlers := s.handlers ++ [.jobReceived wallet] }
  | .request body => some { s with handlers := s.handlers ++ [.received body] }
  | .handler i env =>
    match s.handlers[i]? with
    | none => none
    | some phase =>
      match advance cfg env i s.shared phase with
      | none => none
      | some (c, phase') => some { s with shared := c, handlers := s.handlers.set i phase' }
  | .reconcile env =>
    let (c, phase) := reconcilerAdvance cfg env s.shared s.reconciler
    some { s with shared := c, reconciler := phase }
  -- rows in play, whatever amounts they have by now
  | .torn rows =>
    if s.shared.tmp.clash ∧ ∀ c ∈ rows, c.ident ∈ s.rowsInPlay.map CreditEntry.ident then
      some { s with shared := { s.shared with credits := rows } }
    else none
  | .fund fund => some { s with shared := { s.shared with sponsorship := fund } }
  | .restart creditsOk blocksOk => some { shared := restart creditsOk blocksOk s.shared }

def pool : System State Label := ⟨poolStep cfg⟩

end Glaciem.Pool
