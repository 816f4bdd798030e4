import Veles.Primitives.Transaction
import Veles.Lib.LastWriter

/-!
# Governance votes: `CGovernanceObject::ProcessVote`

A governance object (governance/object.h) keeps, for each masternode that voted on it
(`mapCurrentMNVotes`, keyed by the masternode's collateral outpoint), one `vote_instance_t`
per signal: the outcome, the time of the last rate-checked update and the timestamp of the
vote it came from (`nCreationTime`).  `ProcessVote` (governance/object.cpp) drops a vote
from an unknown masternode, a vote with no or an unsupported signal, an obsolete vote
(`vote.GetTimestamp() < voteInstance.nCreationTime`), a vote that comes too soon when rate
checks are on, and a vote that fails `IsValid` or `AddGovernanceVote`; otherwise it
overwrites the instance.  `CountMatchingVotes` counts the masternodes whose instance of a
signal has a given outcome.

Seen through its outcome and creation time (`tally`), each instance is a register that keeps
the newest write and, on a tie, the later arrival (`LastWriter.run` with `ties`), seeded
with the instance stored before or the default one (`tally_processVotes`).  Two delivery
orders of the same votes agree on every instance, and on every count, wherever the newest
votes of each masternode and signal agree on their outcome; two votes of one masternode and
signal with one timestamp and different outcomes leave each order on the one it got last.
-/

namespace Veles

/-! ## Votes, instances and the object -/

/-- `VOTE_OUTCOME_NONE`; a vote carries its outcome as an `int`. -/
def VOTE_OUTCOME_NONE : Int := 0
/-- `VOTE_OUTCOME_YES`. -/
def VOTE_OUTCOME_YES : Int := 1
/-- `VOTE_OUTCOME_NO`. -/
def VOTE_OUTCOME_NO : Int := 2

/-- `VOTE_SIGNAL_NONE`; a vote carries its signal as an `int`. -/
def VOTE_SIGNAL_NONE : Int := 0
/-- `MAX_SUPPORTED_VOTE_SIGNAL = VOTE_SIGNAL_ENDORSED`. -/
def MAX_SUPPORTED_VOTE_SIGNAL : Int := 4

/-- `GOVERNANCE_UPDATE_MIN`, in seconds. -/
def GOVERNANCE_UPDATE_MIN : Int := 60 * 60

/-- `CGovernanceVoting::ConvertSignalToString`: the switch names `FUNDING` to `ENDORSED`
(1 to 4), `NOOP1` to `NOOP11` (5 to 15) and `CUSTOM1` to `CUSTOM20` (16 to 35); every other
value stays `"NONE"`. -/
def convertSignalToString (nSignal : Int) : String :=
  if nSignal = 1 then "FUNDING"
  else if nSignal = 2 then "VALID"
  else if nSignal = 3 then "DELETE"
  else if nSignal = 4 then "ENDORSED"
  else if 5 ≤ nSignal ∧ nSignal ≤ 15 then "NOOP" ++ toString (nSignal - 4)
  else if 16 ≤ nSignal ∧ nSignal ≤ 35 then "CUSTOM" ++ toString (nSignal - 15)
  else "NONE"

/-- `governance_exception_type_enum_t`. -/
inductive GovernanceExceptionType where
  | GOVERNANCE_EXCEPTION_NONE
  | GOVERNANCE_EXCEPTION_WARNING
  | GOVERNANCE_EXCEPTION_PERMANENT_ERROR
  | GOVERNANCE_EXCEPTION_TEMPORARY_ERROR
  | GOVERNANCE_EXCEPTION_INTERNAL_ERROR
  deriving DecidableEq, Repr

/-- The `operator<<` of the type: its name. -/
def GovernanceExceptionType.toString : GovernanceExceptionType → String
  | .GOVERNANCE_EXCEPTION_NONE => "GOVERNANCE_EXCEPTION_NONE"
  | .GOVERNANCE_EXCEPTION_WARNING => "GOVERNANCE_EXCEPTION_WARNING"
  | .GOVERNANCE_EXCEPTION_PERMANENT_ERROR => "GOVERNANCE_EXCEPTION_PERMANENT_ERROR"
  | .GOVERNANCE_EXCEPTION_TEMPORARY_ERROR => "GOVERNANCE_EXCEPTION_TEMPORARY_ERROR"
  | .GOVERNANCE_EXCEPTION_INTERNAL_ERROR => "GOVERNANCE_EXCEPTION_INTERNAL_ERROR"

/-- `CGovernanceException`. -/
structure CGovernanceException where
  strMessage : String
  eType : GovernanceExceptionType
  nNodePenalty : Int
  deriving DecidableEq, Repr

/-- The constructor of `CGovernanceException`, which prefixes the message with the type. -/
def CGovernanceException.make (strMessageIn : String) (eTypeIn : GovernanceExceptionType)
    (nNodePenaltyIn : Int) : CGovernanceException :=
  ⟨eTypeIn.toString ++ ":" ++ strMessageIn, eTypeIn, nNodePenaltyIn⟩

/-- `CGovernanceVote`: the masternode's collateral outpoint (`vinMasternode.prevout`), the
signal, the outcome and the timestamp. -/
structure CGovernanceVote where
  masternodeOutpoint : COutPoint
  nVoteSignal : Int
  nVoteOutcome : Int
  nTime : Int64
  deriving DecidableEq, Repr

/-- `vote_instance_t`, with the defaults of its constructor. -/
structure VoteInstance where
  eOutcome : Int := VOTE_OUTCOME_NONE
  nTime : Int64 := 0
  nCreationTime : Int64 := 0
  deriving DecidableEq, Repr

/-- `vote_rec_t`: the instance of each signal. -/
structure VoteRec where
  mapInstances : Int → Option VoteInstance := fun _ => none

/-- What `ProcessVote` writes and `CountMatchingVotes` reads of `CGovernanceObject`. -/
structure CGovernanceObject where
  mapCurrentMNVotes : AList fun _ : COutPoint => VoteRec

/-- What `ProcessVote` asks other components: `mnodeman.Has`, `vote.IsValid(true)`,
`mnodeman.AddGovernanceVote` and `governance.AreRateChecksEnabled()`. -/
structure VoteEnv where
  has : COutPoint → Bool
  isValid : CGovernanceVote → Bool
  addGovernanceVote : COutPoint → Bool
  rateChecksEnabled : Bool

namespace CGovernanceObject

/-- The record of a masternode, the empty one where it has none. -/
def recordOf (obj : CGovernanceObject) (outpoint : COutPoint) : VoteRec :=
  (obj.mapCurrentMNVotes.lookup outpoint).getD {}

/-- `mapCurrentMNVotes[outpoint] = recVote`. -/
def setRecord (obj : CGovernanceObject) (outpoint : COutPoint) (recVote : VoteRec) :
    CGovernanceObject :=
  ⟨obj.mapCurrentMNVotes.insert outpoint recVote⟩

/-- The record of the vote's masternode, inserted empty if it was missing. -/
def withRecord (obj : CGovernanceObject) (vote : CGovernanceVote) : CGovernanceObject :=
  obj.setRecord vote.masternodeOutpoint (obj.recordOf vote.masternodeOutpoint)

/-- The instance a vote is checked against, the default one where its signal has none. -/
def voteInstance (obj : CGovernanceObject) (vote : CGovernanceVote) : VoteInstance :=
  ((obj.recordOf vote.masternodeOutpoint).mapInstances vote.nVoteSignal).getD {}

/-- `voteInstance = ...` for the vote's masternode and signal. -/
def setInstance (obj : CGovernanceObject) (vote : CGovernanceVote) (i : VoteInstance) :
    CGovernanceObject :=
  obj.setRecord vote.masternodeOutpoint
    ⟨Function.update (obj.recordOf vote.masternodeOutpoint).mapInstances vote.nVoteSignal
      (some i)⟩

/-- The instance of the vote's signal, inserted with the defaults if it was missing. -/
def withInstance (obj : CGovernanceObject) (vote : CGovernanceVote) : CGovernanceObject :=
  obj.setInstance vote (obj.voteInstance vote)

/-- `CGovernanceObject::ProcessVote` at adjusted time `nNow`: the object after the call and
`ok ()` or the exception it reports.  A record or instance that the call finds missing is
inserted before the checks that follow it, so a rejected vote can leave it behind.  The
messages are the fixed part of the source's texts, without the outpoint, hashes and time
delta that some of them go on with. -/
def processVote (env : VoteEnv) (nNow : Int64) (obj : CGovernanceObject)
    (vote : CGovernanceVote) : CGovernanceObject × Except CGovernanceException Unit :=
  if !env.has vote.masternodeOutpoint then
    (obj, .error (.make "CGovernanceObject::ProcessVote -- Masternode index not found"
      .GOVERNANCE_EXCEPTION_WARNING 0))
  else if vote.nVoteSignal = VOTE_SIGNAL_NONE then
    (obj.withRecord vote, .error (.make "CGovernanceObject::ProcessVote -- Vote signal: none"
      .GOVERNANCE_EXCEPTION_WARNING 0))
  else if vote.nVoteSignal > MAX_SUPPORTED_VOTE_SIGNAL then
    (obj.withRecord vote, .error (.make
      ("CGovernanceObject::ProcessVote -- Unsupported vote signal: " ++
        convertSignalToString vote.nVoteSignal)
      .GOVERNANCE_EXCEPTION_PERMANENT_ERROR 20))
  else if vote.nTime < (obj.voteInstance vote).nCreationTime then
    (obj.withInstance vote, .error (.make "CGovernanceObject::ProcessVote -- Obsolete vote"
      .GOVERNANCE_EXCEPTION_NONE 0))
  else if env.rateChecksEnabled ∧
      nNow.toInt - (obj.voteInstance vote).nTime.toInt < GOVERNANCE_UPDATE_MIN then
    (obj.withInstance vote, .error (.make
      "CGovernanceObject::ProcessVote -- Masternode voting too often"
      .GOVERNANCE_EXCEPTION_TEMPORARY_ERROR 0))
  else if !env.isValid vote then
    (obj.withInstance vote, .error (.make "CGovernanceObject::ProcessVote -- Invalid vote"
      .GOVERNANCE_EXCEPTION_PERMANENT_ERROR 20))
  else if !env.addGovernanceVote vote.masternodeOutpoint then
    (obj.withInstance vote, .error (.make
      "CGovernanceObject::ProcessVote -- Unable to add governance vote"
      .GOVERNANCE_EXCEPTION_PERMANENT_ERROR 0))
  else
    -- `nVoteTimeUpdate` is only set on the rejected rate-check path: the instance keeps its `nTime`
    (obj.setInstance vote ⟨vote.nVoteOutcome, (obj.voteInstance vote).nTime, vote.nTime⟩, .ok ())

/-- Votes delivered in turn, each at its own adjusted time. -/
def processVotes (env : VoteEnv) (obj : CGovernanceObject)
    (L : List (Int64 × CGovernanceVote)) : CGovernanceObject :=
  L.foldl (fun obj p => (obj.processVote env p.1 p.2).1) obj

/-- `CGovernanceObject::CountMatchingVotes`: the loop over `mapCurrentMNVotes`. -/
def countMatchingVotes (obj : CGovernanceObject) (eVoteSignalIn eVoteOutcomeIn : Int) : Int :=
  obj.mapCurrentMNVotes.foldl (fun nCount _ recVote =>
    match recVote.mapInstances eVoteSignalIn with
    | none => nCount
    | some voteInstance => if voteInstance.eOutcome = eVoteOutcomeIn then nCount + 1 else nCount)
    0

/-- `CGovernanceObject::GetYesCount`. -/
def getYesCount (obj : CGovernanceObject) (eVoteSignalIn : Int) : Int :=
  obj.countMatchingVotes eVoteSignalIn VOTE_OUTCOME_YES

/-- `CGovernanceObject::GetNoCount`. -/
def getNoCount (obj : CGovernanceObject) (eVoteSignalIn : Int) : Int :=
  obj.countMatchingVotes eVoteSignalIn VOTE_OUTCOME_NO

/-- `CGovernanceObject::GetAbsoluteYesCount`. -/
def getAbsoluteYesCount (obj : CGovernanceObject) (eVoteSignalIn : Int) : Int :=
  obj.getYesCount eVoteSignalIn - obj.getNoCount eVoteSignalIn

/-- The instance of signal `s` in the record of masternode `outpoint`, if any. -/
def instanceAt (obj : CGovernanceObject) (outpoint : COutPoint) (s : Int) :
    Option VoteInstance :=
  (obj.mapCurrentMNVotes.lookup outpoint).bind fun recVote => recVote.mapInstances s

end CGovernanceObject

/-- A vote that `ProcessVote` checks against the instance of masternode `outpoint` and
signal `s`: its own, with a supported signal. -/
def CGovernanceVote.isFor (vote : CGovernanceVote) (outpoint : COutPoint) (s : Int) : Bool :=
  vote.masternodeOutpoint = outpoint ∧ vote.nVoteSignal = s ∧
    vote.nVoteSignal ≠ VOTE_SIGNAL_NONE ∧ ¬ vote.nVoteSignal > MAX_SUPPORTED_VOTE_SIGNAL

/-- What the tallies read of an instance: its outcome and its creation time. -/
def VoteInstance.tally (i : VoteInstance) : Int × Int64 := (i.eOutcome, i.nCreationTime)

/-- What a vote writes into the tallies: its outcome and its timestamp. -/
def CGovernanceVote.tally (vote : CGovernanceVote) : Int × Int64 :=
  (vote.nVoteOutcome, vote.nTime)

/-- The order `ProcessVote` compares tallies in. -/
def creationTime (p : Int × Int64) : Int := p.2.toInt

namespace CGovernanceObject

/-! ## The maps -/

section Maps

variable (obj : CGovernanceObject) (vote : CGovernanceVote) (o : COutPoint) (s : Int)

theorem instanceAt_setRecord (o' : COutPoint) (recVote : VoteRec) :
    (obj.setRecord o' recVote).instanceAt o s =
      if o = o' then recVote.mapInstances s else obj.instanceAt o s := by
  unfold instanceAt setRecord
  by_cases ho : o = o'
  · subst ho
    simp [AList.lookup_insert]
  · simp [AList.lookup_insert_ne ho, ho]

theorem mem_setRecord (o' : COutPoint) (recVote : VoteRec) :
    o ∈ (obj.setRecord o' recVote).mapCurrentMNVotes ↔ o = o' ∨ o ∈ obj.mapCurrentMNVotes :=
  AList.mem_insert _

theorem mapInstances_recordOf : (obj.recordOf o).mapInstances s = obj.instanceAt o s := by
  unfold recordOf instanceAt
  cases obj.mapCurrentMNVotes.lookup o <;> rfl

theorem voteInstance_eq :
    obj.voteInstance vote =
      (obj.instanceAt vote.masternodeOutpoint vote.nVoteSignal).getD {} := by
  rw [voteInstance, mapInstances_recordOf]

@[simp] theorem instanceAt_withRecord : (obj.withRecord vote).instanceAt o s = obj.instanceAt o s := by
  rw [withRecord, instanceAt_setRecord]
  split
  · next ho => rw [ho, mapInstances_recordOf]
  · rfl

theorem instanceAt_setInstance (i : VoteInstance) :
    (obj.setInstance vote i).instanceAt o s =
      if o = vote.masternodeOutpoint ∧ s = vote.nVoteSignal then some i
      else obj.instanceAt o s := by
  rw [setInstance, instanceAt_setRecord]
  by_cases ho : o = vote.masternodeOutpoint
  · subst ho
    by_cases hs : s = vote.nVoteSignal
    · simp [hs]
    · simp [hs, mapInstances_recordOf]
  · simp [ho]

theorem mem_withRecord :
    o ∈ (obj.withRecord vote).mapCurrentMNVotes ↔
      o = vote.masternodeOutpoint ∨ o ∈ obj.mapCurrentMNVotes :=
  mem_setRecord _ _ _ _

theorem mem_setInstance (i : VoteInstance) :
    o ∈ (obj.setInstance vote i).mapCurrentMNVotes ↔
      o = vote.masternodeOutpoint ∨ o ∈ obj.mapCurrentMNVotes :=
  mem_setRecord _ _ _ _

end Maps

/-! ## One vote -/

section Process

variable (env : VoteEnv) (nNow : Int64) (obj : CGovernanceObject) (vote : CGovernanceVote)

/-- What a call can do to the object: nothing for an unknown masternode, insert the record
for an unsupported signal, and otherwise write the instance of the vote's signal, with the
vote if it passes the remaining checks and with what was found there if not. -/
theorem processVote_fst :
    (obj.processVote env nNow vote).1 =
      if env.has vote.masternodeOutpoint = false then obj
      else if vote.nVoteSignal = VOTE_SIGNAL_NONE ∨
          vote.nVoteSignal > MAX_SUPPORTED_VOTE_SIGNAL then obj.withRecord vote
      else if ¬ vote.nTime < (obj.voteInstance vote).nCreationTime ∧
          ¬ (env.rateChecksEnabled = true ∧
            nNow.toInt - (obj.voteInstance vote).nTime.toInt < GOVERNANCE_UPDATE_MIN) ∧
          env.isValid vote = true ∧ env.addGovernanceVote vote.masternodeOutpoint = true then
        obj.setInstance vote ⟨vote.nVoteOutcome, (obj.voteInstance vote).nTime, vote.nTime⟩
      else obj.withInstance vote := by
  unfold processVote
  -- the right side tests the two signal checks at once; the branches that disagree are
  -- closed by the order on the signal
  split_ifs <;> simp_all <;> omega

/-- Only the instance a vote is for can change. -/
theorem instanceAt_processVote_of_not_isFor (o : COutPoint) (s : Int)
    (h : vote.isFor o s = false) :
    (obj.processVote env nNow vote).1.instanceAt o s = obj.instanceAt o s := by
  have hne : ¬ (vote.nVoteSignal = VOTE_SIGNAL_NONE ∨
      vote.nVoteSignal > MAX_SUPPORTED_VOTE_SIGNAL) → ¬ (o = vote.masternodeOutpoint ∧
        s = vote.nVoteSignal) := by
    rintro hsup ⟨rfl, rfl⟩
    simp only [CGovernanceVote.isFor, decide_eq_false_iff_not, true_and] at h
    exact h ⟨fun h' => hsup (.inl h'), fun h' => hsup (.inr h')⟩
  rw [processVote_fst]
  split_ifs with h₁ h₂ h₃
  · rfl
  · exact instanceAt_withRecord _ _ _ _
  · rw [instanceAt_setInstance, if_neg (hne h₂)]
  · rw [withInstance, instanceAt_setInstance, if_neg (hne h₂)]

/-- A valid vote from a known masternode, with rate checks off, is one write to the tally of
its instance, kept unless the vote is older than what was found there (the default
instance where nothing was). -/
theorem tally_processVote_of_isFor (hrate : env.rateChecksEnabled = false)
    (hvalid : env.has vote.masternodeOutpoint = true ∧ env.isValid vote = true ∧
      env.addGovernanceVote vote.masternodeOutpoint = true)
    (o : COutPoint) (s : Int) (h : vote.isFor o s = true) :
    ((obj.processVote env nNow vote).1.instanceAt o s).map VoteInstance.tally =
      LastWriter.step creationTime true (some ((obj.instanceAt o s).getD {}).tally)
        vote.tally := by
  simp only [CGovernanceVote.isFor, decide_eq_true_eq] at h
  obtain ⟨rfl, rfl, hnone, hmax⟩ := h
  obtain ⟨hhas, hok, hadd⟩ := hvalid
  have hfound := voteInstance_eq obj vote
  rw [processVote_fst, if_neg (by simp [hhas]), if_neg (by tauto)]
  by_cases hold : vote.nTime < (obj.voteInstance vote).nCreationTime
  · -- obsolete: the instance found is written back
    rw [if_neg (fun h => h.1 hold), withInstance, instanceAt_setInstance, if_pos ⟨rfl, rfl⟩,
      ← hfound, LastWriter.step, if_neg]
    · rfl
    · simp only [VoteInstance.tally, CGovernanceVote.tally, creationTime, true_and]
      rw [Int64.lt_iff_toInt_lt] at hold
      omega
  · rw [if_pos ⟨hold, by simp [hrate], hok, hadd⟩, instanceAt_setInstance, if_pos ⟨rfl, rfl⟩,
      ← hfound, LastWriter.step, if_pos]
    · rfl
    · simp only [VoteInstance.tally, CGovernanceVote.tally, creationTime, true_and]
      rw [Int64.lt_iff_toInt_lt] at hold
      omega

/-- The masternodes with a record: the vote adds its own if it is known. -/
theorem mem_processVote (o : COutPoint) :
    o ∈ (obj.processVote env nNow vote).1.mapCurrentMNVotes ↔
      o ∈ obj.mapCurrentMNVotes ∨
        (env.has vote.masternodeOutpoint = true ∧ vote.masternodeOutpoint = o) := by
  rw [processVote_fst]
  split_ifs with h₁
  · simp [h₁]
  · rw [mem_withRecord]; simp [h₁, eq_comm, or_comm]
  · rw [mem_setInstance]; simp [h₁, eq_comm, or_comm]
  · rw [withInstance, mem_setInstance]; simp [h₁, eq_comm, or_comm]

end Process

/-! ## Any run of votes -/

section Run

variable (env : VoteEnv)

@[simp] theorem processVotes_nil (obj : CGovernanceObject) : obj.processVotes env [] = obj := rfl

@[simp] theorem processVotes_cons (obj : CGovernanceObject) (p : Int64 × CGovernanceVote)
    (L : List (Int64 × CGovernanceVote)) :
    obj.processVotes env (p :: L) = (obj.processVote env p.1 p.2).1.processVotes env L := rfl

theorem mem_processVotes (o : COutPoint) :
    ∀ (L : List (Int64 × CGovernanceVote)) (obj : CGovernanceObject),
      o ∈ (obj.processVotes env L).mapCurrentMNVotes ↔
        o ∈ obj.mapCurrentMNVotes ∨ ∃ v ∈ L.map Prod.snd,
          env.has v.masternodeOutpoint = true ∧ v.masternodeOutpoint = o := by
  intro L
  induction L with
  | nil => simp
  | cons p L ih =>
    intro obj
    rw [processVotes_cons, ih, mem_processVote]
    simp only [List.map_cons, List.mem_cons, exists_eq_or_imp]
    tauto

theorem getD_tally_of_map {i : Option VoteInstance} {x : Int × Int64}
    (h : i.map VoteInstance.tally = some x) : (i.getD {}).tally = x := by
  cases i with
  | none => cases h
  | some i => simpa using h

/-- After a run of valid votes with rate checks off, the tally of every instance is its
register fed with the votes for it in arrival order, from the tally found there before (the
default instance's where nothing was); an instance no vote is for is left as it was. -/
theorem tally_processVotes (hrate : env.rateChecksEnabled = false) (o : COutPoint) (s : Int) :
    ∀ (L : List (Int64 × CGovernanceVote)) (obj : CGovernanceObject),
      (∀ p ∈ L, env.has p.2.masternodeOutpoint = true ∧ env.isValid p.2 = true ∧
        env.addGovernanceVote p.2.masternodeOutpoint = true) →
      ((obj.processVotes env L).instanceAt o s).map VoteInstance.tally =
        if (L.map Prod.snd).filter (·.isFor o s) = [] then (obj.instanceAt o s).map VoteInstance.tally
        else LastWriter.run creationTime true (some ((obj.instanceAt o s).getD {}).tally)
          (((L.map Prod.snd).filter (·.isFor o s)).map CGovernanceVote.tally) := by
  intro L
  induction L with
  | nil => intro obj _; rfl
  | cons p L ih =>
    intro obj hL
    rw [processVotes_cons, ih _ fun q hq => hL q (List.mem_cons_of_mem _ hq), List.map_cons]
    cases hfor : p.2.isFor o s
    case false =>
      -- the vote is for another instance: this one and the votes for it are unchanged
      rw [List.filter_cons_of_neg (by simp [hfor]),
        instanceAt_processVote_of_not_isFor env p.1 obj p.2 o s hfor]
    case true =>
      have hstep := tally_processVote_of_isFor env p.1 obj p.2 hrate (hL p (by simp)) o s hfor
      obtain ⟨x, hx⟩ := Option.ne_none_iff_exists'.mp
        (show LastWriter.step creationTime true (some ((obj.instanceAt o s).getD {}).tally)
          p.2.tally ≠ none from LastWriter.step_ne_none _ _)
      rw [hx] at hstep
      rw [List.filter_cons_of_pos (by simp [hfor]), if_neg (List.cons_ne_nil _ _),
        List.map_cons, LastWriter.run_cons, hx, getD_tally_of_map hstep]
      split
      · next hnil => rw [hnil, hstep]; rfl
      · rfl

end Run

/-! ## Counts -/

theorem countMatchingVotes_loop (s out : Int) :
    ∀ (l : List (Σ _ : COutPoint, VoteRec)) (k : Int),
      l.foldl (fun nCount e =>
        match e.2.mapInstances s with
        | none => nCount
        | some voteInstance => if voteInstance.eOutcome = out then nCount + 1 else nCount) k =
      k + (l.countP fun e => (e.2.mapInstances s).map VoteInstance.eOutcome = some out : Nat) := by
  intro l
  induction l with
  | nil => intro k; simp
  | cons e l ih =>
    intro k
    rw [List.foldl_cons, ih, List.countP_cons]
    cases e.2.mapInstances s with
    | none => simp
    | some voteInstance =>
      by_cases hout : voteInstance.eOutcome = out
      · simp [hout]; omega
      · simp [hout]

/-- `CountMatchingVotes` counts the masternodes whose instance of the signal has the
outcome. -/
theorem countMatchingVotes_eq (obj : CGovernanceObject) (s out : Int) :
    obj.countMatchingVotes s out =
      (obj.mapCurrentMNVotes.keys.countP fun o =>
        (obj.instanceAt o s).map VoteInstance.eOutcome = some out : Nat) := by
  rw [countMatchingVotes, AList.foldl, countMatchingVotes_loop, zero_add, AList.keys,
    List.keys, List.countP_map]
  congr 1
  apply List.countP_congr
  intro e he
  -- each entry is what `lookup` finds under its key
  have hlookup : obj.mapCurrentMNVotes.lookup e.1 = some e.2 :=
    AList.mem_lookup_iff.mpr he
  simp [instanceAt, hlookup]

/-- Two objects with the same masternodes, whose instances of a signal have the same
outcomes, count the same votes for it. -/
theorem countMatchingVotes_congr {A B : CGovernanceObject} (s out : Int)
    (hmem : ∀ o, o ∈ A.mapCurrentMNVotes ↔ o ∈ B.mapCurrentMNVotes)
    (hout : ∀ o, (A.instanceAt o s).map VoteInstance.eOutcome =
      (B.instanceAt o s).map VoteInstance.eOutcome) :
    A.countMatchingVotes s out = B.countMatchingVotes s out := by
  have hperm : A.mapCurrentMNVotes.keys.Perm B.mapCurrentMNVotes.keys :=
    (List.perm_ext_iff_of_nodup (AList.keys_nodup _) (AList.keys_nodup _)).mpr fun o => by
      rw [← AList.mem_keys, ← AList.mem_keys, hmem]
  rw [countMatchingVotes_eq, countMatchingVotes_eq, hperm.countP_eq]
  simp only [hout]

/-! ## Two orders of delivery -/

section Converge

variable (env : VoteEnv) (obj : CGovernanceObject)

/-- The tallies an instance is decided among: the one found before (or the default) and the
votes for it. -/
def candidates (L : List (Int64 × CGovernanceVote)) (o : COutPoint) (s : Int) :
    List (Int × Int64) :=
  ((obj.instanceAt o s).getD {}).tally ::
    ((L.map Prod.snd).filter (·.isFor o s)).map CGovernanceVote.tally

theorem map_eOutcome_eq (i : Option VoteInstance) :
    i.map VoteInstance.eOutcome = (i.map VoteInstance.tally).map Prod.fst := by
  cases i <;> rfl

theorem valid_of_perm {L₁ L₂ : List (Int64 × CGovernanceVote)}
    (hp : (L₁.map Prod.snd).Perm (L₂.map Prod.snd))
    (hvalid : ∀ p ∈ L₁, env.has p.2.masternodeOutpoint = true ∧ env.isValid p.2 = true ∧
      env.addGovernanceVote p.2.masternodeOutpoint = true) :
    ∀ p ∈ L₂, env.has p.2.masternodeOutpoint = true ∧ env.isValid p.2 = true ∧
      env.addGovernanceVote p.2.masternodeOutpoint = true := by
  intro p hp₂
  have hmem : p.2 ∈ L₁.map Prod.snd := hp.symm.subset (List.mem_map_of_mem hp₂)
  obtain ⟨q, hq, hqp⟩ := List.mem_map.mp hmem
  rw [← hqp]
  exact hvalid q hq

/-- An instance some vote is for ends on a newest of its candidates. -/
theorem processVotes_newest (hrate : env.rateChecksEnabled = false)
    {L : List (Int64 × CGovernanceVote)}
    (hvalid : ∀ p ∈ L, env.has p.2.masternodeOutpoint = true ∧ env.isValid p.2 = true ∧
      env.addGovernanceVote p.2.masternodeOutpoint = true)
    (o : COutPoint) (s : Int) (hsome : (L.map Prod.snd).filter (·.isFor o s) ≠ []) :
    ∃ r, (obj.processVotes env L).instanceAt o s = some r ∧
      LastWriter.IsNewest creationTime (obj.candidates L o s) r.tally := by
  have htally := tally_processVotes env hrate o s L obj hvalid
  rw [if_neg hsome] at htally
  cases hr : (obj.processVotes env L).instanceAt o s with
  | none =>
    rw [hr] at htally
    exact absurd htally.symm (LastWriter.run_ne_none (.inl (Option.some_ne_none _)))
  | some r =>
    rw [hr, Option.map_some] at htally
    exact ⟨r, rfl, LastWriter.isNewest_run htally.symm⟩

/-- Two orders of the same valid votes end on the same outcome of an instance when the
newest of its candidates agree on their outcome. -/
theorem outcome_processVotes_perm (hrate : env.rateChecksEnabled = false)
    {L₁ L₂ : List (Int64 × CGovernanceVote)} (hp : (L₁.map Prod.snd).Perm (L₂.map Prod.snd))
    (hvalid : ∀ p ∈ L₁, env.has p.2.masternodeOutpoint = true ∧ env.isValid p.2 = true ∧
      env.addGovernanceVote p.2.masternodeOutpoint = true)
    (o : COutPoint) (s : Int)
    (hagree : ∀ a b, LastWriter.IsNewest creationTime (obj.candidates L₁ o s) a →
      LastWriter.IsNewest creationTime (obj.candidates L₁ o s) b → a.1 = b.1) :
    ((obj.processVotes env L₁).instanceAt o s).map VoteInstance.eOutcome =
      ((obj.processVotes env L₂).instanceAt o s).map VoteInstance.eOutcome := by
  have hfilter := hp.filter fun v => v.isFor o s
  rw [map_eOutcome_eq, map_eOutcome_eq, tally_processVotes env hrate o s L₁ obj hvalid,
    tally_processVotes env hrate o s L₂ obj (valid_of_perm env hp hvalid)]
  by_cases hnil : (L₁.map Prod.snd).filter (·.isFor o s) = []
  · rw [if_pos hnil, if_pos (List.nil_perm.mp (hnil ▸ hfilter))]
  · have hnil₂ : (L₂.map Prod.snd).filter (·.isFor o s) ≠ [] :=
      fun h => hnil (List.perm_nil.mp (h ▸ hfilter))
    rw [if_neg hnil, if_neg hnil₂]
    exact LastWriter.map_run_perm Prod.fst (hfilter.map _) hagree

/-- Two orders of the same valid votes count the same votes for a signal when, for every
masternode, the newest candidates of its instance agree on their outcome. -/
theorem countMatchingVotes_processVotes_perm (hrate : env.rateChecksEnabled = false)
    {L₁ L₂ : List (Int64 × CGovernanceVote)} (hp : (L₁.map Prod.snd).Perm (L₂.map Prod.snd))
    (hvalid : ∀ p ∈ L₁, env.has p.2.masternodeOutpoint = true ∧ env.isValid p.2 = true ∧
      env.addGovernanceVote p.2.masternodeOutpoint = true)
    (s : Int)
    (hagree : ∀ o a b, LastWriter.IsNewest creationTime (obj.candidates L₁ o s) a →
      LastWriter.IsNewest creationTime (obj.candidates L₁ o s) b → a.1 = b.1)
    (out : Int) :
    (obj.processVotes env L₁).countMatchingVotes s out =
      (obj.processVotes env L₂).countMatchingVotes s out := by
  apply countMatchingVotes_congr
  · intro o
    rw [mem_processVotes, mem_processVotes]
    simp only [hp.mem_iff]
  · intro o
    exact outcome_processVotes_perm env obj hrate hp hvalid o s (hagree o)

end Converge

end CGovernanceObject

open CGovernanceObject in
/-- Two delivery orders of the same valid votes from known masternodes, with rate checks
off: every instance a vote is for ends on a newest of its candidates (the votes for it and
what was stored); the orders end on the same outcome of an instance when its newest
candidates agree on their outcome, and on the same counts and `GetAbsoluteYesCount` of a
signal when that holds for every masternode. -/
theorem governance_votes_converge (env : VoteEnv) (hrate : env.rateChecksEnabled = false)
    (obj : CGovernanceObject) {L₁ L₂ : List (Int64 × CGovernanceVote)}
    (hp : (L₁.map Prod.snd).Perm (L₂.map Prod.snd))
    (hvalid : ∀ p ∈ L₁, env.has p.2.masternodeOutpoint = true ∧ env.isValid p.2 = true ∧
      env.addGovernanceVote p.2.masternodeOutpoint = true) :
    (∀ o s, (L₁.map Prod.snd).filter (·.isFor o s) ≠ [] →
      ∃ r, (obj.processVotes env L₁).instanceAt o s = some r ∧
        LastWriter.IsNewest creationTime (obj.candidates L₁ o s) r.tally) ∧
    (∀ o s, (∀ a b, LastWriter.IsNewest creationTime (obj.candidates L₁ o s) a →
        LastWriter.IsNewest creationTime (obj.candidates L₁ o s) b → a.1 = b.1) →
      ((obj.processVotes env L₁).instanceAt o s).map VoteInstance.eOutcome =
        ((obj.processVotes env L₂).instanceAt o s).map VoteInstance.eOutcome) ∧
    (∀ s, (∀ o a b, LastWriter.IsNewest creationTime (obj.candidates L₁ o s) a →
        LastWriter.IsNewest creationTime (obj.candidates L₁ o s) b → a.1 = b.1) →
      (∀ out, (obj.processVotes env L₁).countMatchingVotes s out =
        (obj.processVotes env L₂).countMatchingVotes s out) ∧
      (obj.processVotes env L₁).getAbsoluteYesCount s =
        (obj.processVotes env L₂).getAbsoluteYesCount s) := by
  refine ⟨processVotes_newest env obj hrate hvalid,
    outcome_processVotes_perm env obj hrate hp hvalid, fun s hagree => ?_⟩
  have hcount := countMatchingVotes_processVotes_perm env obj hrate hp hvalid s hagree
  refine ⟨hcount, ?_⟩
  rw [getAbsoluteYesCount, getAbsoluteYesCount, getYesCount, getYesCount, getNoCount,
    getNoCount, hcount, hcount]

/-- The newer of two votes of one masternode wins in both orders. -/
theorem governance_votes_converge_newer_wins :
    let o : COutPoint := ⟨Vector.replicate 32 0, 0⟩
    let yes : CGovernanceVote := ⟨o, 1, VOTE_OUTCOME_YES, 1600000000⟩
    let no : CGovernanceVote := ⟨o, 1, VOTE_OUTCOME_NO, 1600000001⟩
    let env : VoteEnv := ⟨fun _ => true, fun _ => true, fun _ => true, false⟩
    let obj : CGovernanceObject := ⟨∅⟩
    (obj.processVotes env [(0, yes), (0, no)]).getAbsoluteYesCount 1 =
      (obj.processVotes env [(0, no), (0, yes)]).getAbsoluteYesCount 1 := by
  intro o yes no env obj
  -- the newest candidate of every instance of signal 1 is fixed: `no` for `o`, the
  -- default instance for every other masternode
  have hnewest : ∀ o' a, LastWriter.IsNewest creationTime
      (obj.candidates [(0, yes), (0, no)] o' 1) a →
      a = if o' = o then no.tally else ({} : VoteInstance).tally := by
    rintro o' a ⟨ha, hle⟩
    by_cases ho : o' = o
    · rw [ho] at ha hle
      have hcand : obj.candidates [(0, yes), (0, no)] o 1 =
          [({} : VoteInstance).tally, yes.tally, no.tally] := by
        simp [CGovernanceObject.candidates, obj, CGovernanceObject.instanceAt,
          CGovernanceVote.isFor, yes, no, VOTE_SIGNAL_NONE, MAX_SUPPORTED_VOTE_SIGNAL]
      rw [hcand] at ha hle
      rw [if_pos ho]
      have hno := hle no.tally (by simp)
      simp only [List.mem_cons, List.not_mem_nil, or_false] at ha
      rcases ha with rfl | rfl | rfl
      · exact absurd hno (by decide)
      · exact absurd hno (by decide)
      · rfl
    · have hcand : obj.candidates [(0, yes), (0, no)] o' 1 = [({} : VoteInstance).tally] := by
        simp [CGovernanceObject.candidates, obj, CGovernanceObject.instanceAt,
          CGovernanceVote.isFor, yes, no, ho, eq_comm]
      rw [hcand, List.mem_singleton] at ha
      rw [if_neg ho, ha]
  have hp : ([((0 : Int64), yes), (0, no)].map Prod.snd).Perm
      ([((0 : Int64), no), (0, yes)].map Prod.snd) :=
    List.Perm.swap no yes []
  exact ((governance_votes_converge env rfl obj hp (by simp [env])).2.2 1 fun o' a b ha hb => by rw [hnewest o' a ha, hnewest o' b hb]).2

/-- Two votes of one masternode and signal with one timestamp and different outcomes: each
order keeps the one it got last, so the two orders disagree on `GetAbsoluteYesCount`. -/
theorem governance_same_timestamp_diverges :
    let o : COutPoint := ⟨Vector.replicate 32 0, 0⟩
    let yes : CGovernanceVote := ⟨o, 1, VOTE_OUTCOME_YES, 1600000000⟩
    let no : CGovernanceVote := ⟨o, 1, VOTE_OUTCOME_NO, 1600000000⟩
    let env : VoteEnv := ⟨fun _ => true, fun _ => true, fun _ => true, false⟩
    let obj : CGovernanceObject := ⟨∅⟩
    (obj.processVotes env [(0, yes), (0, no)]).getAbsoluteYesCount 1 = -1 ∧
      (obj.processVotes env [(0, no), (0, yes)]).getAbsoluteYesCount 1 = 1 := by
  decide

end Veles
