import Glaciem.Lib.Binary64
import Glaciem.Lib.System

/-!
# Glaciem — the game sessions of the faucet

`handleGuess` and `handleClaim` of `wordmine/src/worker.js`, as any number of requests on one
session run them. A handler is cut at its awaits: every read and every write of the KV store is a
step of its own, and any other request may move in between. Both handlers read the whole session
record, decide, and write the whole record back. A session can expire at any time.

The limits hold in the runs whose reads are all `Alone`. That a claim follows a correct guess holds
in every run. `graded`, the guesses graded so far, is proof-only.
-/

namespace Glaciem.Faucet

open List

/-! ## Grading -/

structure Word where
  letters : List Char
  length_eq : letters.length = 5
  deriving DecidableEq

inductive Mark where
  | green
  | yellow
  | gray
  deriving DecidableEq

/-- The first pass of `grade`: how often each letter of the answer is missed in its place. -/
def countLeft : List (Char × Char) → (Char → Nat) → Char → Nat
  | [], counts => counts
  | (g, a) :: rest, counts =>
    countLeft rest (if g = a then counts else Function.update counts a (counts a + 1))

/-- The second pass of `grade`: a yellow mark uses up a letter. -/
def markAll : List (Char × Char) → (Char → Nat) → List Mark
  | [], _ => []
  | (g, a) :: rest, counts =>
    if g = a then .green :: markAll rest counts
    else if counts g ≠ 0 then .yellow :: markAll rest (Function.update counts g (counts g - 1))
    else .gray :: markAll rest counts

def grade (guess answer : Word) : List Mark :=
  let pairs := guess.letters.zip answer.letters
  markAll pairs (countLeft pairs fun _ => 0)

theorem markAll_all_green {pairs : List (Char × Char)} {counts : Char → Nat} :
    (markAll pairs counts).all (· = .green) = true ↔ ∀ p ∈ pairs, p.1 = p.2 := by
  induction pairs generalizing counts with
  | nil => simp [markAll]
  | cons p rest ih =>
    obtain ⟨g, a⟩ := p
    simp only [markAll, forall_mem_cons]
    split_ifs with heq hleft
    · simp [heq, ih]
    · simp [heq]
    · simp [heq]

theorem grade_all_green {guess answer : Word} :
    (grade guess answer).all (· = .green) = true ↔ guess = answer := by
  obtain ⟨g, hg⟩ := guess
  obtain ⟨a, ha⟩ := answer
  have hlength : g.length = a.length := hg.trans ha.symm
  rw [grade, markAll_all_green, Word.mk.injEq]
  dsimp only
  clear hg ha
  induction g generalizing a with
  | nil => simp [length_eq_zero_iff.mp hlength.symm]
  | cons c g ih =>
    cases a with
    | nil => cases hlength
    | cons c' a =>
      rw [zip_cons_cons, forall_mem_cons, cons.injEq]
      exact and_congr_right fun _ => ih a (Nat.succ.inj hlength)

/-- How often letter `c` is met in its place, and how often it is not, in one of the words. -/
def met (c : Char) (pairs : List (Char × Char)) : Nat :=
  pairs.countP fun p => p.1 = c ∧ p.1 = p.2

def missed (word : Char × Char → Char) (c : Char) (pairs : List (Char × Char)) : Nat :=
  pairs.countP fun p => word p = c ∧ p.1 ≠ p.2

theorem count_letters (c : Char) (pairs : List (Char × Char)) :
    (pairs.map Prod.fst).count c = met c pairs + missed Prod.fst c pairs ∧
      (pairs.map Prod.snd).count c = met c pairs + missed Prod.snd c pairs := by
  induction pairs with
  | nil => exact ⟨rfl, rfl⟩
  | cons p rest ih =>
    rw [met, missed, missed] at ih
    simp only [map_cons, count_cons, countP_cons, met, missed, ih.1, ih.2]
    grind

variable (pairs : List (Char × Char))

theorem countLeft_eq (counts : Char → Nat) (c : Char) :
    countLeft pairs counts c = counts c + missed Prod.snd c pairs := by
  induction pairs generalizing counts with
  | nil => rfl
  | cons p rest ih =>
    rw [countLeft, ih]
    grind [missed, Function.update_apply]

theorem countP_markAll (counts : Char → Nat) (c : Char) :
    (((pairs.map Prod.fst).zip (markAll pairs counts)).countP fun p => p.1 = c ∧ p.2 ≠ .gray)
      = met c pairs + min (missed Prod.fst c pairs) (counts c) := by
  induction pairs generalizing counts with
  | nil => simp [met, missed]
  | cons p rest ih =>
    obtain ⟨g, a⟩ := p
    rw [markAll]
    split_ifs with hmet hleft
    · simp only [map_cons, zip_cons_cons, countP_cons, ih, met, missed]
      grind
    · -- a yellow mark takes one of the count, and one of the letters that are missed
      simp only [map_cons, zip_cons_cons, countP_cons, ih, met, missed, Function.update_apply]
      grind
    · simp only [map_cons, zip_cons_cons, countP_cons, ih, met, missed]
      grind

theorem getElem?_markAll (counts : Char → Nat) (i : Nat) :
    (markAll pairs counts)[i]? = pairs[i]?.map fun p =>
      if p.1 = p.2 then .green
      else if missed Prod.fst p.1 (pairs.take i) < counts p.1 then .yellow else .gray := by
  induction pairs generalizing counts i with
  | nil => simp [markAll]
  | cons p rest ih =>
    cases i with
    | zero => grind [markAll, missed]
    | succ i => grind [markAll, missed, Function.update_apply]

theorem length_markAll (counts : Char → Nat) : (markAll pairs counts).length = pairs.length := by
  induction pairs generalizing counts with
  | nil => rfl
  | cons p rest ih => grind [markAll]

theorem Word.map_zip (guess answer : Word) :
    (guess.letters.zip answer.letters).map Prod.fst = guess.letters ∧
      (guess.letters.zip answer.letters).map Prod.snd = answer.letters :=
  ⟨map_fst_zip (by rw [guess.length_eq, answer.length_eq]),
    map_snd_zip (by rw [guess.length_eq, answer.length_eq])⟩

/-- Green marks are the letters in place, each letter is marked as often as both words have it,
yellow before gray. -/
theorem grade_marks (guess answer : Word) :
    (grade guess answer).length = 5 ∧
      (∀ i < 5, (grade guess answer)[i]? = some .green ↔ guess.letters[i]? = answer.letters[i]?) ∧
      (∀ c, ((guess.letters.zip (grade guess answer)).countP fun p => p.1 = c ∧ p.2 ≠ .gray)
        = min (guess.letters.count c) (answer.letters.count c)) ∧
      ∀ i j : Nat, i < j → guess.letters[i]? = guess.letters[j]? →
        (grade guess answer)[j]? = some .yellow → (grade guess answer)[i]? ≠ some .gray := by
  obtain ⟨hguess, hanswer⟩ := Word.map_zip guess answer
  have hlength : (grade guess answer).length = 5 := by
    rw [grade, length_markAll, length_zip, guess.length_eq, answer.length_eq, min_self]
  refine ⟨hlength, fun i hi => ?_, fun c => ?_, fun i j hij heq hj hi => ?_⟩
  · rw [grade, getElem?_markAll]
    have hg := guess.length_eq
    have ha := answer.length_eq
    grind
  · obtain ⟨hfst, hsnd⟩ := count_letters c (guess.letters.zip answer.letters)
    have hmarks := countP_markAll (guess.letters.zip answer.letters)
      (countLeft (guess.letters.zip answer.letters) fun _ => 0) c
    rw [countLeft_eq] at hmarks
    rw [hguess] at hmarks hfst
    rw [hanswer] at hsnd
    rw [grade, hmarks, hfst, hsnd]
    omega
  · rw [grade, getElem?_markAll] at hi hj
    obtain ⟨p, hp, hgray⟩ := Option.map_eq_some_iff.mp hi
    obtain ⟨q, hq, hyellow⟩ := Option.map_eq_some_iff.mp hj
    rw [← hguess, getElem?_map, getElem?_map, hp, hq] at heq
    have hletter : p.1 = q.1 := Option.some.inj heq
    -- the count of the letter lasted up to `j`, so it had not run out at `i`
    have hbefore : missed Prod.fst q.1 ((guess.letters.zip answer.letters).take i)
        ≤ missed Prod.fst q.1 ((guess.letters.zip answer.letters).take j) :=
      (take_sublist_take_left hij.le).countP_le
    rw [hletter] at hgray
    grind

/-! ## Records -/

structure Session where
  word : Word
  guessCount : Nat := 0
  won : Bool := false
  lost : Bool := false
  claimed : Bool := false
  reward : ℚ := 0
  deriving DecidableEq

/-- `faucet:balance`, as the payout daemon writes it; an older one had no `unlocked`. -/
structure BalanceRecord where
  balance : Option ℚ
  unlocked : Option ℚ
  «at» : Int

inductive ClaimStatus where
  | pending
  | paid
  | failed
  deriving DecidableEq

structure ClaimRecord where
  address : String
  amount : ℚ
  amountAtomic : Int
  status : ClaimStatus := .pending
  createdAt : Int
  error : String := ""
  txHash : String := ""
  fee : Nat := 0
  deriving DecidableEq

inductive Response where
  | error (msg : String) (status : Nat)
  | graded (marks : List Mark) (rec : Session)
  | claimed (claimId : String)
  deriving DecidableEq

/-- The total and the spendable balance, both 0 when the daemon has not been heard of for ten
minutes. -/
def getFaucetBalance (now : Int) : Option BalanceRecord → ℚ × ℚ
  | none => (0, 0)
  | some rec =>
    if now - rec.at > 600000 then (0, 0)
    else (rec.balance.getD 0, rec.unlocked.getD (rec.balance.getD 0))

def maxReward (balance : ℚ) : ℚ := min 1 (binary64 (max 0 balance / 1000))

/-! ## The handlers -/

/-- A request on the session. The guess is the text after `toUpperCase`. -/
inductive Request where
  | guess (text : String)
  | claim (address : String)

inductive Handler where
  | guess (word : Word)
  | guessBalance (marks : List Mark) (rec : Session)
  | guessPut (marks : List Mark) (rec : Session)
  | claim (address : String)
  | claimPut (address : String) (rec : Session)
  | claimRecord (claimId : String) (record : ClaimRecord)
  | claimQueue (time : Int) (claimId : String)
  | done (response : Response)

/-- `/^[A-Z]{5}$/`. -/
def parseGuess (guess : String) : Option Word :=
  if h : guess.toList.length = 5 then
    if guess.toList.all (fun c => 'A' ≤ c ∧ c ≤ 'Z') then some ⟨guess.toList, h⟩ else none
  else none

/-- The character class `[1-9A-HJ-NP-Za-km-z]`. -/
def isBase58 (c : Char) : Bool :=
  ('1' ≤ c && c ≤ '9') || ('A' ≤ c && c ≤ 'H') || ('J' ≤ c && c ≤ 'N') || ('P' ≤ c && c ≤ 'Z')
    || ('a' ≤ c && c ≤ 'k') || ('m' ≤ c && c ≤ 'z')

/-- `/^R[1-9A-HJ-NP-Za-km-z]{96}$/`. -/
def isAddress (address : String) : Bool :=
  match address.toList with
  | 'R' :: rest => rest.length = 96 && rest.all isBase58
  | _ => false

def Request.receive : Request → Handler
  | .guess text =>
    match parseGuess text with
    | none => .done (.error "bad_guess" 400)
    | some word => .guess word
  | .claim address =>
    if isAddress address then .claim address else .done (.error "bad_address" 400)

def Session.guessed (rec : Session) (guess : Word) : Session :=
  let won := (grade guess rec.word).all (· = .green)
  { rec with guessCount := rec.guessCount + 1
             won := won
             lost := !won && 6 ≤ rec.guessCount + 1 }

def Session.rewarded (rec : Session) (unlocked : ℚ) : Session :=
  { rec with reward := binary64 (maxReward unlocked / rec.guessCount) }

def Session.newClaim (rec : Session) (address : String) (now : Int) : ClaimRecord where
  address := address
  amount := rec.reward
  amountAtomic := ⌊binary64 (rec.reward * 10 ^ 12)⌋
  createdAt := now

/-- The session record, and the claim records and queue entries put so far. -/
structure Store where
  session : Option Session
  claims : List (String × ClaimRecord) := []
  queue : List (Int × String) := []
  graded : List Word := []
  deriving DecidableEq

structure Outside where
  now : Int := 0
  balance : Option BalanceRecord := none
  claimId : String := ""

def afterGrade (marks : List Mark) (rec : Session) : Handler :=
  if rec.won then .guessBalance marks rec else .guessPut marks rec

def handleGuess (guess : Word) (st : Store) : Store × Handler :=
  match st.session with
  | none => (st, .done (.error "no_session" 410))
  | some rec =>
    if rec.won || rec.lost then (st, .done (.error "already_finished" 410))
    else
      ({ st with graded := st.graded ++ [guess] },
        afterGrade (grade guess rec.word) (rec.guessed guess))

def handleClaim (address : String) (st : Store) : Store × Handler :=
  match st.session with
  | none => (st, .done (.error "expired_or_unknown" 410))
  | some rec =>
    if !rec.won then (st, .done (.error "not_won" 400))
    else if rec.claimed then (st, .done (.error "already_claimed" 409))
    else (st, .claimPut address { rec with claimed := true })

/-- A handler up to its next await; one that has answered does not move. -/
def Handler.advance (o : Outside) (st : Store) : Handler → Option (Store × Handler)
  | .guess word => some (handleGuess word st)
  | .guessBalance marks rec =>
    some (st, .guessPut marks (rec.rewarded (getFaucetBalance o.now o.balance).2))
  | .guessPut marks rec => some ({ st with session := some rec }, .done (.graded marks rec))
  | .claim address => some (handleClaim address st)
  | .claimPut address rec =>
    some ({ st with session := some rec }, .claimRecord o.claimId (rec.newClaim address o.now))
  | .claimRecord claimId record =>
    some ({ st with claims := st.claims ++ [(claimId, record)] }, .claimQueue o.now claimId)
  | .claimQueue time claimId =>
    some ({ st with queue := st.queue ++ [(time, claimId)] }, .done (.claimed claimId))
  | .done _ => none

/-! ## Runs -/

structure State extends Store where
  handlers : List Handler := []

inductive Label where
  | arrive (request : Request)
  | advance (i : Nat) (o : Outside)
  | expire

def step (s : State) : Label → Option State
  | .arrive request => some { s with handlers := s.handlers ++ [request.receive] }
  | .advance i o =>
    match s.handlers[i]? with
    | none => none
    | some h => (h.advance o s.toStore).map fun (st, h') => ⟨st, s.handlers.set i h'⟩
  | .expire => some { s with session := none }

def sessions : System State Label := ⟨step⟩

def start (word : Word) : State := { session := some { word := word } }

/-! ## What a step can do -/

def Handler.held : Handler → Option Session
  | .guessBalance _ rec | .guessPut _ rec | .claimPut _ rec => some rec
  | _ => none

def Handler.reads : Handler → Bool
  | .guess _ | .claim _ => true
  | _ => false

def Handler.marks : Handler → Bool
  | .claimPut _ _ => true
  | _ => false

def Handler.claims : Handler → Bool
  | .claimRecord _ _ => true
  | _ => false

def Handler.queues : Handler → Bool
  | .claimQueue _ _ => true
  | _ => false

section AfterGrade

variable (marks : List Mark) (rec : Session)

@[simp] theorem held_afterGrade : (afterGrade marks rec).held = some rec := by
  unfold afterGrade; split <;> rfl

@[simp] theorem marks_afterGrade : (afterGrade marks rec).marks = false := by
  unfold afterGrade; split <;> rfl

@[simp] theorem claims_afterGrade : (afterGrade marks rec).claims = false := by
  unfold afterGrade; split <;> rfl

@[simp] theorem queues_afterGrade : (afterGrade marks rec).queues = false := by
  unfold afterGrade; split <;> rfl

end AfterGrade

inductive Moves (st : Store) : Handler → Store → Handler → Prop
  | refuse {h : Handler} (response : Response) : h.reads = true → Moves st h st (.done response)
  | graded {rec : Session} (word : Word) (marks : List Mark) : st.session = some rec →
      rec.won = false → rec.lost = false →
      Moves st (.guess word) { st with graded := st.graded ++ [word] }
        (afterGrade marks (rec.guessed word))
  | balance (marks : List Mark) (rec : Session) (unlocked : ℚ) :
      Moves st (.guessBalance marks rec) st (.guessPut marks (rec.rewarded unlocked))
  | guessPut (marks : List Mark) (rec : Session) :
      Moves st (.guessPut marks rec) { st with session := some rec } (.done (.graded marks rec))
  | claim {rec : Session} (address : String) : st.session = some rec → rec.won = true →
      rec.claimed = false →
      Moves st (.claim address) st (.claimPut address { rec with claimed := true })
  | claimPut (address : String) (rec : Session) (claimId : String) (record : ClaimRecord) :
      Moves st (.claimPut address rec) { st with session := some rec } (.claimRecord claimId record)
  | claimRecord (claimId : String) (record : ClaimRecord) (time : Int) :
      Moves st (.claimRecord claimId record)
        { st with claims := st.claims ++ [(claimId, record)] } (.claimQueue time claimId)
  | claimQueue (time : Int) (claimId : String) :
      Moves st (.claimQueue time claimId) { st with queue := st.queue ++ [(time, claimId)] }
        (.done (.claimed claimId))

theorem moves_handleGuess (word : Word) (st : Store) :
    Moves st (.guess word) (handleGuess word st).1 (handleGuess word st).2 := by
  unfold handleGuess
  split
  · exact .refuse _ rfl
  · rename_i rec hrec
    split_ifs with hover
    · exact .refuse _ rfl
    · rw [Bool.or_eq_true, not_or, Bool.not_eq_true, Bool.not_eq_true] at hover
      exact .graded word _ hrec hover.1 hover.2

theorem moves_handleClaim (address : String) (st : Store) :
    Moves st (.claim address) (handleClaim address st).1 (handleClaim address st).2 := by
  unfold handleClaim
  split
  · exact .refuse _ rfl
  · rename_i rec hrec
    split_ifs with hwon hclaimed
    · exact .refuse _ rfl
    · exact .refuse _ rfl
    · rw [Bool.not_eq_true', Bool.not_eq_false] at hwon
      exact .claim address hrec hwon (Bool.not_eq_true _ ▸ hclaimed)

variable {st : Store} {s' : State} {l : Label} {word : Word} {st' : Store}

theorem moves_of_advance {o : Outside} {h h' : Handler}
    (hadvance : h.advance o st = some (st', h')) : Moves st h st' h' := by
  cases h with
  | guess word =>
    have heq : handleGuess word st = (st', h') := Option.some.inj hadvance
    have hmoves := moves_handleGuess word st
    rwa [heq] at hmoves
  | guessBalance marks rec =>
    cases hadvance
    exact .balance marks rec _
  | guessPut marks rec =>
    cases hadvance
    exact .guessPut marks rec
  | claim address =>
    have heq : handleClaim address st = (st', h') := Option.some.inj hadvance
    have hmoves := moves_handleClaim address st
    rwa [heq] at hmoves
  | claimPut address rec =>
    cases hadvance
    exact .claimPut address rec _ _
  | claimRecord claimId record =>
    cases hadvance
    exact .claimRecord claimId record _
  | claimQueue time claimId =>
    cases hadvance
    exact .claimQueue time claimId
  | done response => cases hadvance

variable {s : State}

theorem step_cases (hstep : step s l = some s') :
    (∃ request : Request, s' = { s with handlers := s.handlers ++ [request.receive] })
      ∨ (∃ i o h st' h' pre post, l = .advance i o ∧ s.handlers[i]? = some h ∧
          s.handlers = pre ++ h :: post ∧ Moves s.toStore h st' h' ∧ s' = ⟨st', pre ++ h' :: post⟩)
      ∨ s' = { s with session := none } := by
  cases l with
  | arrive request =>
    cases hstep
    exact .inl ⟨request, rfl⟩
  | advance i o =>
    simp only [step] at hstep
    split at hstep
    · cases hstep
    · rename_i h hi
      obtain ⟨⟨st', h'⟩, hadvance, rfl⟩ := Option.map_eq_some_iff.mp hstep
      obtain ⟨pre, post, hsplit, hset⟩ := exists_split_set hi
      refine .inr (.inl ⟨i, o, h, st', h', pre, post, rfl, hi, hsplit,
        moves_of_advance hadvance, ?_⟩)
      simp only [hset]
  | expire =>
    cases hstep
    exact .inr (.inr rfl)

theorem receive_idle (request : Request) : request.receive.held = none
    ∧ request.receive.claims = false ∧ request.receive.queues = false := by
  cases request with
  | guess text | claim address =>
    simp only [Request.receive]
    split <;> exact ⟨rfl, rfl, rfl⟩

/-! ## A claim follows a correct guess -/

def State.claimsStarted (s : State) : Nat := s.claims.length + s.handlers.countP Handler.claims

/-- A copy of the session record that says the game is won was made after a correct guess. -/
def Honest (word : Word) (graded : List Word) (rec : Session) : Prop :=
  rec.word = word ∧ (rec.won = true → word ∈ graded)

variable {rec : Session}

theorem Honest.mono {graded graded' : List Word} (h : Honest word graded rec)
    (hsub : graded ⊆ graded') : Honest word graded' rec :=
  ⟨h.1, fun hwon => hsub (h.2 hwon)⟩

def Handler.Honest (word : Word) (graded : List Word) (h : Handler) : Prop :=
  ∀ rec, h.held = some rec → Faucet.Honest word graded rec
    ∧ (h.marks = true → rec.won = true ∧ rec.claimed = true)

theorem won_guessed :
    (rec.guessed word).won = true ↔ word = rec.word := grade_all_green

theorem Moves.graded_subset {h h' : Handler} (hmoves : Moves st h st' h') :
    st.graded ⊆ st'.graded := by
  cases hmoves with
  | graded word => exact subset_append_left _ _
  | _ => exact Subset.refl _

theorem Moves.honest {h h' : Handler} (hmoves : Moves st h st' h')
    (hsession : ∀ rec, st.session = some rec → Honest word st.graded rec)
    (hheld : h.Honest word st.graded) :
    (∀ rec, st'.session = some rec → Honest word st'.graded rec) ∧ h'.Honest word st'.graded := by
  have hidle : ∀ {h : Handler}, h.held = none → h.Honest word st'.graded :=
    fun hnone rec hrec => by rw [hnone] at hrec; cases hrec
  cases hmoves with
  | refuse response | claimRecord | claimQueue => exact ⟨hsession, hidle rfl⟩
  | @graded rec guess marks hrec hwon hlost =>
    have hsub : st.graded ⊆ st.graded ++ [guess] := subset_append_left _ _
    refine ⟨fun rec' hrec' => (hsession rec' hrec').mono hsub, fun rec' hrec' => ?_⟩
    rw [held_afterGrade] at hrec'
    cases hrec'
    obtain ⟨hword, -⟩ := hsession rec hrec
    refine ⟨⟨hword, fun hcorrect => ?_⟩, fun hmarks => by simp at hmarks⟩
    rw [← hword, ← won_guessed.mp hcorrect]
    exact mem_append_right _ mem_cons_self
  | balance marks rec unlocked =>
    refine ⟨hsession, fun rec' hrec' => ?_⟩
    cases hrec'
    exact ⟨(hheld rec rfl).1, fun hmarks => by cases hmarks⟩
  | guessPut marks rec | claimPut address rec =>
    refine ⟨fun rec' hrec' => ?_, hidle rfl⟩
    cases hrec'
    exact (hheld rec rfl).1
  | @claim rec address hrec hwon =>
    refine ⟨hsession, fun rec' hrec' => ?_⟩
    cases hrec'
    exact ⟨hsession rec hrec, fun _ => ⟨hwon, rfl⟩⟩

theorem Moves.claims_eq {h h' : Handler} (hmoves : Moves st h st' h') :
    st'.claims.length + h'.claims.toNat
      = st.claims.length + h.claims.toNat + h.marks.toNat := by
  cases hmoves with
  | refuse response hreads => cases h <;> first | rfl | cases hreads
  | graded word marks =>
    rw [claims_afterGrade]
    rfl
  | claimRecord => simp [Handler.claims, Handler.marks]
  | _ => rfl

theorem Moves.queue_eq {h h' : Handler} (hmoves : Moves st h st' h') :
    st'.queue.length + h'.queues.toNat + st.claims.length
      = st.queue.length + h.queues.toNat + st'.claims.length := by
  cases hmoves with
  | refuse response hreads => cases h <;> first | rfl | cases hreads
  | graded word marks =>
    rw [queues_afterGrade]
    rfl
  | claimRecord =>
    simp only [Handler.queues, length_append, length_singleton, Bool.toNat_true, Bool.toNat_false]
    omega
  | claimQueue =>
    simp only [Handler.queues, length_append, length_singleton, Bool.toNat_true, Bool.toNat_false]
  | _ => rfl

theorem countP_middle (p : Handler → Bool) (pre post : List Handler) (h : Handler) :
    (pre ++ h :: post).countP p = pre.countP p + post.countP p + (p h).toNat := by
  rw [countP_append, countP_cons]
  cases p h with
  | false => rfl
  | true => exact (add_assoc _ _ _).symm

structure Earned (word : Word) (s : State) : Prop where
  session : ∀ rec, s.session = some rec → Honest word s.graded rec
  held : ∀ h ∈ s.handlers, h.Honest word s.graded
  claims : s.claimsStarted ≠ 0 → word ∈ s.graded
  queue : s.queue.length + s.handlers.countP Handler.queues = s.claims.length

theorem earned_start (word : Word) : Earned word (start word) where
  session rec hrec := by
    cases hrec
    exact ⟨rfl, fun h => absurd h Bool.false_ne_true⟩
  held h hh := absurd hh not_mem_nil
  claims h := absurd rfl h
  queue := rfl

theorem Earned.move {h h' : Handler} {pre post : List Handler}
    (hs : Earned word s) (hsplit : s.handlers = pre ++ h :: post)
    (hmoves : Moves s.toStore h st' h') : Earned word ⟨st', pre ++ h' :: post⟩ := by
  have hself : h.Honest word s.graded := hs.held h (hsplit ▸ mem_append_right _ mem_cons_self)
  obtain ⟨hsession, hheld⟩ := hmoves.honest hs.session hself
  refine ⟨hsession, fun t ht => ?_, fun hstarted => ?_, ?_⟩
  · rcases mem_append.mp ht with hpre | hpost
    · exact fun rec hrec => (hs.held t (hsplit ▸ mem_append_left _ hpre) rec hrec).imp_left
        (·.mono hmoves.graded_subset)
    · rcases mem_cons.mp hpost with rfl | hpost
      · exact hheld
      · exact fun rec hrec => (hs.held t (hsplit ▸ mem_append_right _
          (mem_cons_of_mem _ hpost)) rec hrec).imp_left (·.mono hmoves.graded_subset)
  · -- the claim was there, or this step writes the flag of a won game
    have hcount := hmoves.claims_eq
    have hold := hs.claims
    simp only [State.claimsStarted, hsplit, countP_middle] at hold hstarted
    cases hmarks : h.marks with
    | false =>
      rw [hmarks, Bool.toNat_false] at hcount
      exact hmoves.graded_subset (hold (by omega))
    | true =>
      obtain ⟨address, rec, rfl⟩ : ∃ address rec, h = .claimPut address rec := by
        cases h <;> first | exact ⟨_, _, rfl⟩ | cases hmarks
      obtain ⟨hhonest, hclaim⟩ := hself rec rfl
      exact hmoves.graded_subset (hhonest.2 (hclaim rfl).1)
  · have hqueue := hs.queue
    have hmove := hmoves.queue_eq
    simp only [hsplit, countP_middle] at hqueue ⊢
    omega

theorem Earned.step (hs : Earned word s) (hstep : step s l = some s') : Earned word s' := by
  rcases step_cases hstep with
    ⟨request, rfl⟩ | ⟨i, o, h, st', h', pre, post, -, -, hsplit, hmoves, rfl⟩ | rfl
  · obtain ⟨hheld, hclaims, hqueues⟩ := receive_idle request
    refine ⟨hs.session, fun h hh rec hrec => ?_, ?_, ?_⟩
    · rcases mem_append.mp hh with hold | hnew
      · exact hs.held h hold rec hrec
      · rw [mem_singleton.mp hnew, hheld] at hrec
        cases hrec
    · simpa [State.claimsStarted, hclaims] using hs.claims
    · simpa [hqueues] using hs.queue
  · exact hs.move hsplit hmoves
  · exact ⟨fun rec hrec => (by cases hrec), hs.held, hs.claims, hs.queue⟩

/-! ## The limits, without overlaps -/

def State.held (s : State) : List Session := s.handlers.filterMap Handler.held

/-- A request reads the session only while no other one is between its read and its write. -/
def Alone (s : State) : Label → Prop
  | .advance i _ => (∃ h, s.handlers[i]? = some h ∧ h.reads = true) → s.held = []
  | _ => True

instance (s : State) : (l : Label) → Decidable (Alone s l)
  | .advance i _ => decidable_of_iff ((s.handlers[i]?.any Handler.reads = true) → s.held = []) (by
      simp only [Alone, Option.any_eq_true])
  | .arrive _ => isTrue trivial
  | .expire => isTrue trivial

/-- The record counts `n` guesses, and a game that goes on has room for one more. -/
def Counts (n : Nat) (rec : Session) : Prop :=
  rec.guessCount = n ∧ n ≤ 6 ∧ (rec.won = false → rec.lost = false → n < 6)

theorem Counts.guessed {n : Nat} (h : Counts n rec) (hwon : rec.won = false)
    (hlost : rec.lost = false) (word : Word) : Counts (n + 1) (rec.guessed word) := by
  obtain ⟨hcount, -, hroom⟩ := h
  have hlt := hroom hwon hlost
  refine ⟨congrArg (· + 1) hcount, hlt, fun hwon' hlost' => ?_⟩
  -- a guess that does not win and is not the last has left `lost` unset
  have hnot : ¬ 6 ≤ n + 1 := by
    have hset : (!(rec.guessed word).won && decide (6 ≤ rec.guessCount + 1)) = false := hlost'
    rw [hwon', hcount] at hset
    simpa using hset
  omega

/-- At most one handler has a record in hand. While there is none, the session counts the graded
guesses and a claim has started only if it says so; while there is one, this holds of the record
in hand, and no claim has started. -/
structure Limits (s : State) : Prop where
  graded_le : s.graded.length ≤ 6
  started_le : s.claimsStarted ≤ 1
  one_held : s.held.length ≤ 1
  idle : s.held = [] → ∀ rec, s.session = some rec → Counts s.graded.length rec
    ∧ (rec.won = false ∨ rec.claimed = false → s.claimsStarted = 0)
  busy : ∀ rec ∈ s.held, Counts s.graded.length rec ∧ s.claimsStarted = 0

theorem limits_start (word : Word) : Limits (start word) where
  graded_le := Nat.zero_le _
  started_le := Nat.zero_le _
  one_held := Nat.zero_le _
  idle _ rec hrec := by
    cases hrec
    exact ⟨⟨rfl, Nat.zero_le _, fun _ _ => Nat.succ_pos 5⟩, fun _ => rfl⟩
  busy rec hrec := absurd hrec not_mem_nil

theorem Limits.frame (hs : Limits s) (hsession : s'.session = s.session)
    (hgraded : s'.graded = s.graded) (hstarted : s'.claimsStarted = s.claimsStarted)
    (hheld : s'.held.Perm s.held) : Limits s' where
  graded_le := hgraded ▸ hs.graded_le
  started_le := hstarted ▸ hs.started_le
  one_held := hheld.length_eq ▸ hs.one_held
  idle hnone rec hrec := by
    rw [hgraded, hstarted]
    exact hs.idle (perm_nil.mp (hnone ▸ hheld.symm)) rec (hsession ▸ hrec)
  busy rec hrec := by
    rw [hgraded, hstarted]
    exact hs.busy rec (hheld.mem_iff.mp hrec)

theorem Limits.holding (hheld : s.held.Perm [rec])
    (hcounts : Counts s.graded.length rec) (hstarted : s.claimsStarted = 0) : Limits s where
  graded_le := hcounts.2.1
  started_le := hstarted ▸ Nat.zero_le 1
  one_held := hheld.length_eq.le
  idle hnone := by
    rw [hnone] at hheld
    exact absurd hheld.length_eq (by simp)
  busy rec' hrec' := by
    rw [mem_singleton.mp (hheld.mem_iff.mp hrec')]
    exact ⟨hcounts, hstarted⟩

theorem Limits.resting (hheld : s.held = [])
    (hsession : s.session = some rec) (hcounts : Counts s.graded.length rec)
    (hstarted : s.claimsStarted ≤ 1)
    (hclaimed : rec.won = false ∨ rec.claimed = false → s.claimsStarted = 0) : Limits s where
  graded_le := hcounts.2.1
  started_le := hstarted
  one_held := by rw [hheld]; exact Nat.zero_le 1
  idle _ rec' hrec' := by
    cases hsession.symm.trans hrec'
    exact ⟨hcounts, hclaimed⟩
  busy rec' hrec' := by
    rw [hheld] at hrec'
    cases hrec'

section Move

variable {s : State} {st' : Store} {h h' : Handler} {pre post : List Handler}

theorem held_middle (st : Store) (pre post : List Handler) (h : Handler) :
    (State.mk st (pre ++ h :: post)).held.Perm
      (h.held.toList ++ (pre.filterMap Handler.held ++ post.filterMap Handler.held)) :=
  filterMap_split_perm Handler.held pre h post

theorem claimsStarted_move (hsplit : s.handlers = pre ++ h :: post)
    (hmoves : Moves s.toStore h st' h') : (State.mk st' (pre ++ h' :: post)).claimsStarted
      = s.claimsStarted + h.marks.toNat := by
  have hcount := hmoves.claims_eq
  simp only [State.claimsStarted, hsplit, countP_middle]
  omega

theorem held_of_split (hsplit : s.handlers = pre ++ h :: post) : s.held.Perm
    (h.held.toList ++ (pre.filterMap Handler.held ++ post.filterMap Handler.held)) := by
  rw [State.held, hsplit]
  exact filterMap_split_perm Handler.held pre h post

theorem Limits.others_nil (hs : Limits s) (hsplit : s.handlers = pre ++ h :: post) {rec : Session}
    (hheld : h.held = some rec) :
    pre.filterMap Handler.held ++ post.filterMap Handler.held = [] := by
  have hlength := (held_of_split hsplit).length_eq
  have hone := hs.one_held
  rw [hheld, Option.toList_some, length_append, length_singleton] at hlength
  exact length_eq_zero_iff.mp (by omega)

theorem others_nil_of_held (hsplit : s.handlers = pre ++ h :: post) (hnone : s.held = []) :
    pre.filterMap Handler.held ++ post.filterMap Handler.held = [] := by
  have hperm := held_of_split hsplit
  rw [hnone] at hperm
  exact (append_eq_nil_iff.mp (nil_perm.mp hperm)).2

theorem Limits.busy_of_split (hs : Limits s) (hsplit : s.handlers = pre ++ h :: post)
    {rec : Session} (hheld : h.held = some rec) :
    Counts s.graded.length rec ∧ s.claimsStarted = 0 := by
  refine hs.busy rec ((held_of_split hsplit).mem_iff.mpr ?_)
  rw [hheld]
  exact mem_append_left _ mem_cons_self

theorem Limits.move {word : Word} (hs : Limits s) (hearned : Earned word s)
    (hsplit : s.handlers = pre ++ h :: post) (hmoves : Moves s.toStore h st' h')
    (halone : h.reads = true → s.held = []) : Limits ⟨st', pre ++ h' :: post⟩ := by
  have hstarted := claimsStarted_move hsplit hmoves
  have hheld := held_middle st' pre post h'
  have hbefore := held_of_split hsplit
  have hself : h ∈ s.handlers := hsplit ▸ mem_append_right _ mem_cons_self
  cases hmoves with
  | refuse response hreads =>
    refine hs.frame rfl rfl ?_ ?_
    · cases h <;> first | exact hstarted | cases hreads
    · rw [halone hreads] at hbefore ⊢
      cases h <;> first | exact hheld.trans hbefore.symm | cases hreads
  | @graded rec guess marks hrec hwon hlost =>
    have hnone := halone rfl
    obtain ⟨hcounts, hunclaimed⟩ := hs.idle hnone rec hrec
    rw [held_afterGrade, others_nil_of_held hsplit hnone] at hheld
    refine Limits.holding hheld ?_ (hstarted.trans (hunclaimed (.inl hwon)))
    rw [length_append]
    exact hcounts.guessed hwon hlost guess
  | balance marks rec unlocked =>
    obtain ⟨hcounts, hzero⟩ := hs.busy_of_split hsplit rfl
    rw [hs.others_nil hsplit rfl] at hheld
    exact Limits.holding hheld hcounts (hstarted.trans hzero)
  | guessPut marks rec =>
    obtain ⟨hcounts, hzero⟩ := hs.busy_of_split hsplit rfl
    rw [hs.others_nil hsplit rfl] at hheld
    exact Limits.resting (perm_nil.mp hheld) rfl hcounts
      ((hstarted.trans hzero).le.trans (Nat.zero_le 1)) fun _ => hstarted.trans hzero
  | @claim rec address hrec hwon hclaimed =>
    have hnone := halone rfl
    obtain ⟨hcounts, hunclaimed⟩ := hs.idle hnone rec hrec
    rw [others_nil_of_held hsplit hnone] at hheld
    exact Limits.holding hheld hcounts (hstarted.trans (hunclaimed (.inr hclaimed)))
  | claimPut address rec =>
    obtain ⟨hcounts, hzero⟩ := hs.busy_of_split hsplit rfl
    rw [hs.others_nil hsplit rfl] at hheld
    obtain ⟨hwon, hclaimed⟩ := (hearned.held _ hself rec rfl).2 rfl
    refine Limits.resting (perm_nil.mp hheld) rfl hcounts ?_ ?_
    · rw [hstarted, hzero]
      exact Nat.le_refl 1
    · rw [hwon, hclaimed]
      rintro (h | h) <;> cases h
  | claimRecord | claimQueue => exact hs.frame rfl rfl hstarted (hheld.trans hbefore.symm)

end Move

theorem Limits.step {s : State} (hs : Limits s) (hearned : Earned word s) (halone : Alone s l)
    (hstep : step s l = some s') : Limits s' := by
  rcases step_cases hstep with
    ⟨request, rfl⟩ | ⟨i, o, h, st', h', pre, post, rfl, hi, hsplit, hmoves, rfl⟩ | rfl
  · obtain ⟨hheld, hclaims, -⟩ := receive_idle request
    refine hs.frame rfl rfl ?_ ?_
    · simp [State.claimsStarted, hclaims]
    · simp [State.held, hheld]
  · exact hs.move hearned hsplit hmoves fun hreads => halone ⟨h, hi, hreads⟩
  · exact ⟨hs.graded_le, hs.started_le, hs.one_held, fun _ rec hrec => (by cases hrec), hs.busy⟩

structure Kept (word : Word) (s : State) : Prop where
  limits : Limits s
  earned : Earned word s

/-- In every run whose requests read the session one after the other, at most six guesses are
graded, at most one claim is queued, and one of the graded guesses was the word if a claim is. -/
theorem session_limits_of_run (word : Word) (ls : List Label) (s : State)
    (hmeets : sessions.Meets Alone (start word) ls)
    (hrun : sessions.exec (start word) ls = some s) :
    s.graded.length ≤ 6 ∧ s.claims.length ≤ 1 ∧ s.queue.length ≤ 1
      ∧ (s.claims ≠ [] ∨ s.queue ≠ [] → word ∈ s.graded) := by
  obtain ⟨hlimits, hearned⟩ : Kept word s := sessions.invariant_of_meets
    (fun h halone hstep => ⟨h.limits.step h.earned halone hstep, h.earned.step hstep⟩)
    ⟨limits_start word, earned_start word⟩ hmeets hrun
  have hstarted := hlimits.started_le
  have hqueue := hearned.queue
  rw [State.claimsStarted] at hstarted
  refine ⟨hlimits.graded_le, by omega, by omega, fun hclaim => hearned.claims ?_⟩
  rw [State.claimsStarted]
  simp only [← length_pos_iff] at hclaim
  omega

def sampleWord : Word := ⟨"ABOUT".toList, by decide⟩

def sampleAddress : String := "R" ++ String.ofList (replicate 96 '1')

/-- One request after the other: a wrong guess, the word, a claim, and a second claim, which is
refused. -/
def sampleRun : List Label :=
  [.arrive (.guess "ABOVE"), .advance 0 {}, .advance 0 {},
    .arrive (.guess "ABOUT"), .advance 1 {}, .advance 1 {}, .advance 1 {},
    .arrive (.claim sampleAddress), .advance 2 {}, .advance 2 {}, .advance 2 {}, .advance 2 {},
    .arrive (.claim sampleAddress), .advance 3 {}]

theorem session_limits_of_run_sample : ∃ s : State,
    sessions.exec (start sampleWord) sampleRun = some s ∧ s.graded.length = 2
      ∧ s.queue.length = 1 ∧ sampleWord ∈ s.graded := by
  have hcheck : (sessions.execChecked (fun s l => decide (Alone s l)) (start sampleWord)
      sampleRun).map (fun s => (s.graded.length, s.queue.length)) = some (2, 1) := by
    decide +kernel
  obtain ⟨s, hrun, hmeets, hcounts⟩ :=
    sessions.exists_of_checked (fun _ _ => of_decide_eq_true) hcheck
  obtain ⟨hgraded, hqueue⟩ := Prod.mk.inj hcounts
  refine ⟨s, hrun, hgraded, hqueue, ?_⟩
  refine (session_limits_of_run sampleWord sampleRun s hmeets hrun).2.2.2 (.inr fun hnil => ?_)
  rw [hnil] at hqueue
  cases hqueue

/-- Seven guesses that all read the session before the first of them writes it; then two claims that
both read it before either writes. -/
def overlappingRun : List Label :=
  replicate 6 (.arrive (.guess "ABOVE")) ++ [.arrive (.guess "ABOUT")]
    ++ (range 7).map (.advance · {}) ++ (range 6).map (.advance · {})
    ++ [.advance 6 {}, .advance 6 {}]
    ++ [.arrive (.claim sampleAddress), .arrive (.claim sampleAddress),
      .advance 7 {}, .advance 8 {}, .advance 7 {}, .advance 7 {}, .advance 7 {},
      .advance 8 {}, .advance 8 {}, .advance 8 {}]

/-- Requests that overlap get seven guesses graded and two claims queued. -/
theorem session_limits_passed : ∃ s : State,
    sessions.exec (start sampleWord) overlappingRun = some s
      ∧ s.graded.length = 7 ∧ s.queue.length = 2 := by
  have hrun : (sessions.exec (start sampleWord) overlappingRun).map
      (fun s => (s.graded.length, s.queue.length)) = some (7, 2) := by
    decide +kernel
  obtain ⟨s, hs, hcounts⟩ := Option.map_eq_some_iff.mp hrun
  exact ⟨s, hs, (Prod.mk.inj hcounts).1, (Prod.mk.inj hcounts).2⟩

end Glaciem.Faucet
