import Vpsim.Peripherals.RemoteTransaction
import Vpsim.Lib.History

/-!
# Polling for remote transactions

`poll` of `GenericRemoteInitiator` with every outcome of the reads of its channel. While `mFree` holds it takes up
requests: it clears `mFree`, reads the header and hands the transaction to `localRead` or `localWrite`. The flag is
set again when the transaction is completed, which may be during the local access or later. The block behind `buf`
is taken to be long enough for what is read into it.
-/

namespace Vpsim.Peripherals

open Vpsim.Lib

/-- A call of `completeRead` or `completeWrite`. `written` says whether the write of the response succeeds. -/
inductive CompletionCall where
  | completeRead (c : Completion) (written : Bool)
  | completeWrite (type : UInt32) (written : Bool)

/-- A request that is ready on the channel: what the reads of its header and of its data return, with nothing for a
failure, and the completions that happen before the local access returns. -/
structure IncomingRequest where
  header : Option (List UInt8)
  payload : Option (List UInt8)
  completions : List CompletionCall

/-- `GenericRemoteInitiator` by itself, with the buffers that it has sent and the transaction that was handed over
and awaits its completion. -/
structure PollingInitiator where
  mFree : Bool
  trans : List UInt8
  resp : List UInt8
  mBufSize : ℕ
  buf : List UInt8
  sent : List (List UInt8)
  awaiting : Option LocalCall

/-- A call of the initiator. -/
inductive InitiatorCall where
  | poll (incoming : List IncomingRequest)
  | complete (c : CompletionCall)

namespace PollingInitiator

abbrev PollM := EStateM String PollingInitiator

/-- The initiator as constructed, with members that have arbitrary values. -/
def fresh (trans resp buf : List UInt8) (mBufSize : ℕ) : PollingInitiator :=
  ⟨true, trans, resp, mBufSize, buf, [], none⟩

/-- Writes of a response: the second, which is needed for long data only, is made if the first succeeds. -/
def writeResponse (rest : List UInt8) (written : Bool) : PollM PUnit :=
  modify fun s => { s with sent := s.sent ++ if written ∧ rest ≠ [] then [s.resp, rest] else [s.resp] }

/-- `completeRead` and `completeWrite`. -/
def complete : CompletionCall → PollM PUnit
  | .completeRead c written => do
    modify fun s => { s with mFree := true, awaiting := none }
    let s ← get
    let size := if c.type.toNat = remoteReadOk then RemoteTransaction.size s.trans else 0
    modify fun s => { s with resp := Link.responseBytes c size s.resp }
    writeResponse (slice preallocSize (size - preallocSize) c.data) written
  | .completeWrite type written => do
    modify fun s => { s with mFree := true, awaiting := none }
    modify fun s => { s with resp := patch 8 (leBytes 8 0) (patch 0 (leBytes 4 type.toNat) s.resp) }
    writeResponse [] written

section Poll

-- The bytes of a block that is newly allocated.
variable (fill : ℕ → UInt8)

/-- `get_buf`, which takes the size as 32 bits. -/
def getBuf (size : ℕ) : PollM PUnit :=
  modify fun s =>
    if s.mBufSize < size % 2 ^ 32 then
      { s with mBufSize := size % 2 ^ 32, buf := (List.range (size % 2 ^ 32)).map fill }
    else s

/-- A call of `localRead` or `localWrite`, with the completions that happen during it. -/
def handOver (call : LocalCall) (completions : List CompletionCall) : PollM PUnit := do
  modify fun s => { s with awaiting := some call }
  completions.forM complete

/-- The read of the data that do not fit into the header, and whether it goes on from there. -/
def readPayload (size : ℕ) (payload : Option (List UInt8)) : PollM Bool :=
  if preallocSize < size then
    match payload with
    | none => return false
    | some bytes => do
      modify fun s => { s with buf := patch preallocSize bytes s.buf }
      return true
  else return true

/-- The switch on the type of a request whose header was read. The result says whether `poll` goes on. -/
def serve (r : IncomingRequest) : PollM Bool := do
  let m := (← get).trans
  let size := RemoteTransaction.size m
  if RemoteTransaction.type m = RemoteTransactionType.remoteRead.toNat then
    getBuf fill size
    handOver (.localRead (RemoteTransaction.address m) size) r.completions
    return true
  else if RemoteTransaction.type m = RemoteTransactionType.remoteWrite.toNat then
    getBuf fill size
    modify fun s => { s with buf := patch 0 ((RemoteTransaction.data m).take (min size preallocSize)) s.buf }
    if ← readPayload size r.payload then
      let buf := (← get).buf
      handOver (.localWrite (RemoteTransaction.address m) size (buf.take size)) r.completions
      return true
    else return false
  else throw "Only READ and WRITE transactions are currently supported."

/-- `poll`, with the requests that its loop finds ready one after the other. -/
def poll : List IncomingRequest → PollM PUnit
  | [] => return ⟨⟩
  | r :: incoming => do
    if (← get).mFree then
      modify fun s => { s with mFree := false }
      match r.header with
      | none => return ⟨⟩
      | some bytes =>
        modify fun s => { s with trans := patch 0 bytes s.trans }
        if ← serve fill r then poll incoming else return ⟨⟩
    else return ⟨⟩

def run : InitiatorCall → PollM PUnit
  | .poll incoming => poll fill incoming
  | .complete c => complete c

/-- The state after calls, whether or not they throw. -/
def after (s : PollingInitiator) (calls : List InitiatorCall) : PollingInitiator :=
  calls.foldl (fun s call => endState (run fill call s)) s

/-- A transaction awaits its completion, or the initiator is free to take up the next one. -/
def Serving (s : PollingInitiator) : Prop := s.awaiting ≠ none ∨ s.mFree = true

/-- The initiator is not wedged after any of the calls. -/
def NeverWedged (s : PollingInitiator) (calls : List InitiatorCall) : Prop :=
  ∀ done, done <+: calls → (after fill s done).Serving

end Poll

/-- A header of a known type, with a payload that can be read if it is needed. -/
def Accepted (m : List UInt8) (payload : Option (List UInt8)) : Prop :=
  RemoteTransaction.type m = RemoteTransactionType.remoteRead.toNat ∨
    RemoteTransaction.type m = RemoteTransactionType.remoteWrite.toNat ∧
      (preallocSize < RemoteTransaction.size m → payload ≠ none)

/-- Every request that `poll` takes up, from a header and a flag, has a header that can be read and is accepted. It
goes on to the next one if the transaction is completed at once. -/
def AllAccepted : List UInt8 → Bool → List IncomingRequest → Prop
  | _, false, _ => True
  | _, true, [] => True
  | trans, true, r :: incoming =>
    ∃ bytes, r.header = some bytes ∧ Accepted (patch 0 bytes trans) r.payload ∧
      AllAccepted (patch 0 bytes trans) (!r.completions.isEmpty) incoming

/-- A call whose requests are all accepted. -/
def Proper (s : PollingInitiator) : InitiatorCall → Prop
  | .poll incoming => AllAccepted s.trans s.mFree incoming
  | .complete _ => True

/-! ## What a call leaves behind -/

variable {s : PollingInitiator} {fill : ℕ → UInt8}

/-- The flag says whether a transaction awaits its completion. -/
def Settled (s : PollingInitiator) : Prop := s.mFree = s.awaiting.isNone

/-- The flag is clear, and no transaction is going to set it. -/
def Lost (s : PollingInitiator) : Prop := s.mFree = false ∧ s.awaiting = none

theorem Lost.not_settled (h : Lost s) : ¬ Settled s := by
  unfold Settled
  rw [h.1, h.2]
  exact nofun

/-- An initiator that is settled or lost serves exactly when it is settled. -/
theorem serving_iff (h : Settled s ∨ Lost s) : s.Serving ↔ Settled s := by
  unfold Serving Settled
  constructor
  · intro hserving
    obtain h | h := h
    · exact h
    · rw [h.1, h.2] at hserving
      obtain hserving | hserving := hserving
      · exact absurd rfl hserving
      · cases hserving
  · intro hsettled
    cases hawaiting : s.awaiting with
    | some call => exact .inl nofun
    | none =>
      rw [hawaiting] at hsettled
      exact .inr hsettled

/-- A completion sets the flag. -/
theorem wp_complete (c : CompletionCall) (s : PollingInitiator) :
    wp (complete c) (fun _ t => t.mFree = true ∧ t.awaiting = none ∧ t.trans = s.trans) (fun _ _ => False) s := by
  cases c with
  | completeRead c written => exact ⟨rfl, rfl, rfl⟩
  | completeWrite type written => exact ⟨rfl, rfl, rfl⟩

/-- After completions the flag is set. -/
theorem wp_completions (cs : List CompletionCall) (s : PollingInitiator) (h : Settled s) :
    wp (cs.forM complete)
      (fun _ t => Settled t ∧ t.mFree = (!cs.isEmpty || s.mFree) ∧ t.trans = s.trans) (fun _ _ => False) s := by
  induction cs generalizing s with
  | nil => exact ⟨h, rfl, rfl⟩
  | cons c cs ih =>
    apply (wp_complete c s).bind
    intro _ t ⟨hfree, hawaiting, htrans⟩
    have ht : Settled t := by
      unfold Settled
      rw [hfree, hawaiting]
      rfl
    apply (ih t ht).mono
    intro _ t' ⟨ht', hfree', htrans'⟩
    rw [hfree, Bool.or_true] at hfree'
    exact ⟨ht', hfree', htrans'.trans htrans⟩

/-- A transaction that is handed over awaits its completion or was completed. -/
theorem wp_handOver (call : LocalCall) (cs : List CompletionCall) (hfree : s.mFree = false) :
    wp (handOver call cs)
      (fun _ t => Settled t ∧ t.mFree = !cs.isEmpty ∧ t.trans = s.trans) (fun _ _ => False) s := by
  unfold handOver
  apply wp.step
  rw [wp_modify]
  apply (wp_completions cs { s with awaiting := some call } hfree).mono
  intro _ t ⟨ht, hfree', htrans⟩
  dsimp only at hfree'
  rw [hfree, Bool.or_false] at hfree'
  exact ⟨ht, hfree', htrans⟩

/-- `get_buf` leaves the flag, the transaction and what is awaited. -/
theorem wp_getBuf (size : ℕ) (s : PollingInitiator) :
    wp (getBuf fill size) (fun _ t => t.mFree = s.mFree ∧ t.awaiting = s.awaiting ∧ t.trans = s.trans)
      (fun _ _ => False) s := by
  unfold getBuf
  rw [wp_modify]
  by_cases h : s.mBufSize < size % 2 ^ 32
  · rw [if_pos h]
    exact ⟨rfl, rfl, rfl⟩
  · rw [if_neg h]
    exact ⟨rfl, rfl, rfl⟩

/-- The data of a request are there unless they do not fit into the header and cannot be read. -/
theorem wp_readPayload (size : ℕ) (payload : Option (List UInt8)) (s : PollingInitiator) :
    wp (readPayload size payload)
      (fun b t => (b = true ↔ (preallocSize < size → payload ≠ none)) ∧
        t.mFree = s.mFree ∧ t.awaiting = s.awaiting ∧ t.trans = s.trans) (fun _ _ => False) s := by
  unfold readPayload
  by_cases hsize : preallocSize < size
  · rw [if_pos hsize]
    cases payload with
    | none => exact ⟨iff_of_false nofun fun h => h hsize rfl, rfl, rfl, rfl⟩
    | some bytes => exact ⟨iff_of_true rfl fun _ => nofun, rfl, rfl, rfl⟩
  · rw [if_neg hsize]
    exact ⟨iff_of_true rfl fun h => absurd h hsize, rfl, rfl, rfl⟩

/-- A request is handed over exactly when it is accepted, and otherwise lost. -/
theorem wp_serve (fill : ℕ → UInt8) (r : IncomingRequest) (h : Lost s) :
    wp (serve fill r)
      (fun b t => if b then Accepted s.trans r.payload ∧ Settled t ∧ t.mFree = !r.completions.isEmpty ∧ t.trans = s.trans
        else ¬ Accepted s.trans r.payload ∧ Lost t)
      (fun _ t => ¬ Accepted s.trans r.payload ∧ Lost t) s := by
  have hne : RemoteTransactionType.remoteWrite.toNat ≠ RemoteTransactionType.remoteRead.toNat := by decide
  unfold serve Accepted
  apply wp.step
  rw [wp_get]
  by_cases hread : RemoteTransaction.type s.trans = RemoteTransactionType.remoteRead.toNat
  · rw [if_pos hread]
    apply ((wp_getBuf _ s).imp (fun _ _ h => h) nofun).bind
    intro _ t ⟨hfree, _, htrans⟩
    apply ((wp_handOver _ r.completions (hfree.trans h.1)).imp (fun _ _ h => h) nofun).bind
    intro _ t' ⟨ht', hfree', htrans'⟩
    exact ⟨.inl hread, ht', hfree', htrans'.trans htrans⟩
  rw [if_neg hread]
  by_cases hwrite : RemoteTransaction.type s.trans = RemoteTransactionType.remoteWrite.toNat
  · rw [if_pos hwrite]
    apply ((wp_getBuf _ s).imp (fun _ _ h => h) nofun).bind
    intro _ t ⟨hfree, hawaiting, htrans⟩
    apply wp.step
    rw [wp_modify]
    apply ((wp_readPayload _ r.payload _).imp (fun _ _ h => h) nofun).bind
    intro b t' ⟨hb, hfree', hawaiting', htrans'⟩
    by_cases hgoes : b = true
    · rw [if_pos hgoes]
      apply wp.step
      rw [wp_get]
      apply ((wp_handOver _ r.completions ((hfree'.trans hfree).trans h.1)).imp (fun _ _ h => h) nofun).bind
      intro _ t'' ⟨ht'', hfree'', htrans''⟩
      exact ⟨.inr ⟨hwrite, hb.1 hgoes⟩, ht'', hfree'', (htrans''.trans htrans').trans htrans⟩
    · rw [if_neg hgoes]
      refine ⟨?_, (hfree'.trans hfree).trans h.1, (hawaiting'.trans hawaiting).trans h.2⟩
      intro haccepted
      obtain haccepted | ⟨_, hpayload⟩ := haccepted
      · exact hread haccepted
      · exact hgoes (hb.2 hpayload)
  · rw [if_neg hwrite]
    exact ⟨fun haccepted => haccepted.elim hread fun h => hwrite h.1, h⟩

/-- A poll that takes nothing up changes nothing. -/
theorem wp_poll_busy (incoming : List IncomingRequest) (h : s.mFree = false) :
    wp (poll fill incoming) (fun _ t => t = s) (fun _ _ => False) s := by
  cases incoming with
  | nil => rfl
  | cons r incoming =>
    unfold poll
    apply wp.step
    rw [wp_get, if_neg (Bool.eq_false_iff.1 h)]
    rfl

/-- A poll leaves the initiator settled if all its requests are accepted, and lost otherwise. -/
theorem wp_poll (incoming : List IncomingRequest) (h : Settled s) :
    wp (poll fill incoming)
      (fun _ t => AllAccepted s.trans s.mFree incoming ∧ Settled t ∨ ¬ AllAccepted s.trans s.mFree incoming ∧ Lost t)
      (fun _ t => ¬ AllAccepted s.trans s.mFree incoming ∧ Lost t) s := by
  induction incoming generalizing s with
  | nil =>
    refine .inl ⟨?_, h⟩
    cases s.mFree <;> exact trivial
  | cons r incoming ih =>
    cases hfree : s.mFree with
    | false =>
      apply (wp_poll_busy (r :: incoming) hfree).imp
      · intro _ t heq
        rw [heq]
        exact .inl ⟨trivial, h⟩
      · exact nofun
    | true =>
      have hawaiting : s.awaiting = none := by
        unfold Settled at h
        rw [hfree] at h
        exact Option.isNone_iff_eq_none.1 h.symm
      unfold poll
      apply wp.step
      rw [wp_get, if_pos hfree]
      apply wp.step
      rw [wp_modify]
      cases hheader : r.header with
      | none =>
        refine .inr ⟨fun haccepted => ?_, rfl, hawaiting⟩
        obtain ⟨bytes, hbytes, _⟩ := haccepted
        rw [hheader] at hbytes
        cases hbytes
      | some bytes =>
        dsimp only
        apply wp.step
        rw [wp_modify]
        have haccepted : AllAccepted s.trans true (r :: incoming) ↔ Accepted (patch 0 bytes s.trans) r.payload ∧
            AllAccepted (patch 0 bytes s.trans) (!r.completions.isEmpty) incoming := by
          constructor
          · intro ⟨bytes', hbytes', h'⟩
            cases hheader.symm.trans hbytes'
            exact h'
          · exact fun h' => ⟨bytes, hheader, h'⟩
        rw [haccepted]
        have hserve := wp_serve fill r
          (show Lost { s with mFree := false, trans := patch 0 bytes s.trans } from ⟨rfl, hawaiting⟩)
        apply (hserve.imp (fun _ _ h' => h') fun _ _ h' => ⟨fun h'' => h'.1 h''.1, h'.2⟩).bind
        intro b t hb
        by_cases hgoes : b = true
        · rw [if_pos hgoes] at hb ⊢
          obtain ⟨hfirst, ht, hfree', htrans⟩ := hb
          have hrest := ih ht
          rw [hfree', htrans] at hrest
          apply hrest.imp
          · intro _ t' h'
            obtain h' | h' := h'
            · exact .inl ⟨⟨hfirst, h'.1⟩, h'.2⟩
            · exact .inr ⟨fun h'' => h'.1 h''.2, h'.2⟩
          · exact fun _ t' h' => ⟨fun h'' => h'.1 h''.2, h'.2⟩
        · rw [if_neg hgoes] at hb ⊢
          exact .inr ⟨fun h'' => hb.1 h''.1, hb.2⟩

/-- A settled initiator is settled after a call exactly when the call is proper, and lost otherwise. -/
theorem run_settled (h : Settled s) (call : InitiatorCall) :
    Proper s call ∧ Settled (endState (run fill call s)) ∨ ¬ Proper s call ∧ Lost (endState (run fill call s)) := by
  cases call with
  | poll incoming =>
    exact wp.endState (P := fun t => Proper s (.poll incoming) ∧ Settled t ∨ ¬ Proper s (.poll incoming) ∧ Lost t)
      ((wp_poll incoming h).imp (fun _ _ h' => h') fun _ _ h' => .inr h')
  | complete c =>
    apply Or.inl
    refine ⟨trivial, ?_⟩
    apply wp.endState
    apply (wp_complete c s).imp
    · intro _ t ⟨hfree, hawaiting, _⟩
      unfold Settled
      rw [hfree, hawaiting]
      rfl
    · exact nofun

/-- A lost initiator stays lost until something is completed that was never handed over. -/
theorem run_lost (h : Lost s) (call : InitiatorCall) :
    Settled (endState (run fill call s)) ∨ Lost (endState (run fill call s)) := by
  cases call with
  | poll incoming =>
    apply Or.inr
    have hend : endState (run fill (.poll incoming) s) = s :=
      wp.endState (P := (· = s)) ((wp_poll_busy incoming h.1).imp (fun _ _ h' => h') nofun)
    rw [hend]
    exact h
  | complete c =>
    apply Or.inl
    apply wp.endState
    apply (wp_complete c s).imp
    · intro _ t ⟨hfree, hawaiting, _⟩
      unfold Settled
      rw [hfree, hawaiting]
      rfl
    · exact nofun

/-- After any calls the initiator is settled or lost. -/
theorem settled_or_lost (trans resp buf : List UInt8) (mBufSize : ℕ) (calls : List InitiatorCall) :
    Settled (after fill (fresh trans resp buf mBufSize) calls) ∨ Lost (after fill (fresh trans resp buf mBufSize) calls) := by
  induction calls using List.reverseRecOn with
  | nil => exact .inl rfl
  | append_singleton calls call ih =>
    unfold after
    rw [List.foldl_append]
    obtain h | h := ih
    · exact (run_settled h call).imp And.right And.right
    · exact run_lost h call

/-! ## Every sequence of calls -/

/-- The initiator is not wedged after any of its calls exactly when every request that a poll takes up has a header
and data that can be read and a known type. -/
theorem neverWedged_iff (fill : ℕ → UInt8) (trans resp buf : List UInt8) (mBufSize : ℕ) (calls : List InitiatorCall) :
    NeverWedged fill (fresh trans resp buf mBufSize) calls ↔
      AtEach (fun done call => Proper (after fill (fresh trans resp buf mBufSize) done) call) calls := by
  have hserving (done : List InitiatorCall) : (after fill (fresh trans resp buf mBufSize) done).Serving ↔
      Settled (after fill (fresh trans resp buf mBufSize) done) :=
    serving_iff (settled_or_lost trans resp buf mBufSize done)
  unfold NeverWedged
  simp only [hserving]
  have hinit : Settled (fresh trans resp buf mBufSize) := rfl
  refine (forall_prefix_iff (fun _ s => Settled s) (fun done call s h => ?_) calls).trans (and_iff_right hinit)
  obtain ⟨hproper, hsettled⟩ | ⟨hproper, hlost⟩ := run_settled h call
  · exact iff_of_true hsettled hproper
  · exact iff_of_false hlost.not_settled hproper

/-- A read of the header that fails leaves the initiator wedged. -/
theorem not_neverWedged_failedRead :
    ¬ NeverWedged (fun _ => 0) (fresh [] [] [] 0) [.poll [⟨none, none, []⟩]] := by
  intro h
  obtain hserving | hserving := h _ List.prefix_rfl
  · exact hserving rfl
  · cases hserving

end PollingInitiator

end Vpsim.Peripherals
