import Chronos.Foundation.Ring
import Chronos.Queue.ReadyQueue

/-! # The ready queue is a bounded FIFO

The circular array denotes the list of entries that were accepted and not yet
handed out. One invariant ties the array, its indices and the ticket counter to
the outcomes of the run, and both operations keep it.
-/
namespace Chronos.ReadyQueue
open Foundation
variable {Ptr Req : Type}

abbrev capacity_pos : 0 < CHRONOS_READY_QUEUE_SIZE := by decide

/-- The entries in the queue, oldest first. -/
def ChronosQueue.contents (q : ChronosQueue Ptr Req) : List (TxnInfo Ptr Req) :=
  ringContents q.txnInfoArr capacity_pos q.nextout q.occupied.toNat

/-- `0 <= occupied <= CHRONOS_READY_QUEUE_SIZE` and
`nextin = (nextout + occupied) mod CHRONOS_READY_QUEUE_SIZE`. -/
structure ChronosQueue.IndicesValid (q : ChronosQueue Ptr Req) : Prop where
  occupied_nonneg : 0 ≤ q.occupied
  occupied_le : q.occupied ≤ CHRONOS_READY_QUEUE_SIZE
  nextout_lt : q.nextout < CHRONOS_READY_QUEUE_SIZE
  nextin_eq : q.nextin = (q.nextout + q.occupied.toNat) % CHRONOS_READY_QUEUE_SIZE

/-- The entries accepted by successful enqueues, as the callers passed them. -/
def accepted (os : List (Outcome Ptr Req)) : List (TxnInfo Ptr Req) :=
  os.filterMap fun | .accepted info _ => some info | _ => none

/-- The values stored through `ticket_ret`. -/
def ticketsReturned (os : List (Outcome Ptr Req)) : List UInt64 :=
  os.filterMap fun | .accepted _ ticket => some ticket | _ => none

def handedOut (os : List (Outcome Ptr Req)) : List (TxnInfo Ptr Req) :=
  os.filterMap fun | .handedOut info => some info | _ => none

/-- The `k`-th entry, counted from one, carries ticket `k`. -/
def stamped (infos : List (TxnInfo Ptr Req)) : List (TxnInfo Ptr Req) :=
  infos.mapIdx fun k info => { info with ticket := UInt64.ofNat (k + 1) }

@[simp] theorem stamped_nil : stamped ([] : List (TxnInfo Ptr Req)) = [] := rfl

@[simp] theorem stamped_length (infos : List (TxnInfo Ptr Req)) :
    (stamped infos).length = infos.length := by
  simp [stamped]

theorem stamped_append (infos : List (TxnInfo Ptr Req)) (info : TxnInfo Ptr Req) :
    stamped (infos ++ [info]) =
      stamped infos ++ [{ info with ticket := UInt64.ofNat (infos.length + 1) }] := by
  simp [stamped, List.mapIdx_append]

theorem stamped_getElem? (infos : List (TxnInfo Ptr Req)) (k : ℕ) :
    (stamped infos)[k]? = infos[k]?.map fun info =>
    { info with ticket := UInt64.ofNat (k + 1) } := by
  simp [stamped]

/-- The queue agrees with the outcomes of the run that led to it. -/
structure Fifo (q : ChronosQueue Ptr Req) (os : List (Outcome Ptr Req)) : Prop where
  indices : q.IndicesValid
  entries : stamped (accepted os) = handedOut os ++ q.contents
  ticketReq : q.ticketReq = UInt64.ofNat (accepted os).length
  tickets : ticketsReturned os = (List.range (accepted os).length).map fun k => UInt64.ofNat (k + 1)

theorem fifo_zeroed (zeroReq : Req) :
    Fifo (ChronosQueue.zeroed zeroReq : ChronosQueue Ptr Req) [] where
  indices := ⟨le_rfl, by simp [ChronosQueue.zeroed], by simp [ChronosQueue.zeroed], rfl⟩
  entries := rfl
  ticketReq := rfl
  tickets := rfl

/-! ## One critical section -/

theorem dequeue_cases (q : ChronosQueue Ptr Req) (hq : q.IndicesValid) :
    (q.occupied ≤ 0 ∧ chronosDequeueTransaction q = .wait) ∨
    ∃ h : q.nextout < CHRONOS_READY_QUEUE_SIZE, 0 < q.occupied ∧ chronosDequeueTransaction q =
      .done { q with nextout := (q.nextout + 1) % CHRONOS_READY_QUEUE_SIZE, occupied :=
        q.occupied - 1 }
        q.txnInfoArr[q.nextout] := by
  by_cases h : q.occupied ≤ 0
  · exact Or.inl ⟨h, by simp [chronosDequeueTransaction, h]⟩
  · have hpos : q.occupied > 0 := by omega
    refine Or.inr ⟨hq.nextout_lt, hpos, ?_⟩
    simp only [chronosDequeueTransaction, if_neg h, hpos, not_true_eq_false, if_false]
    rw [Vector.getElem?_eq_getElem hq.nextout_lt]

theorem enqueue_cases (q : ChronosQueue Ptr Req) (hq : q.IndicesValid) (info : TxnInfo Ptr Req) :
    (q.occupied ≥ CHRONOS_READY_QUEUE_SIZE ∧ chronosEnqueueTransaction q info = .wait) ∨
    ∃ h : q.nextin < CHRONOS_READY_QUEUE_SIZE, q.occupied < CHRONOS_READY_QUEUE_SIZE ∧
      chronosEnqueueTransaction q info =
        .done { q with
          txnInfoArr := q.txnInfoArr.set q.nextin { info with ticket := q.ticketReq + 1 } h
          ticketReq := q.ticketReq + 1
          nextin := (q.nextin + 1) % CHRONOS_READY_QUEUE_SIZE
          occupied := q.occupied + 1 } (q.ticketReq + 1) := by
  by_cases h : q.occupied ≥ CHRONOS_READY_QUEUE_SIZE
  · exact Or.inl ⟨h, by rw [chronosEnqueueTransaction, if_pos h]⟩
  · have hlt : q.occupied < CHRONOS_READY_QUEUE_SIZE := by omega
    have hin : q.nextin < CHRONOS_READY_QUEUE_SIZE := by
      rw [hq.nextin_eq]
      exact Nat.mod_lt _ capacity_pos
    refine Or.inr ⟨hin, hlt, ?_⟩
    simp only [chronosEnqueueTransaction, if_neg h, hlt, not_true_eq_false, if_false, dif_pos hin]

theorem dequeue_contents {q q' : ChronosQueue Ptr Req} {info : TxnInfo Ptr Req}
    (hq : q.IndicesValid) (hd : chronosDequeueTransaction q = .done q' info) :
    q'.IndicesValid ∧ q.contents = info :: q'.contents ∧ q'.ticketReq = q.ticketReq := by
  rcases dequeue_cases q hq with ⟨_, hw⟩ | ⟨hout, hpos, hd'⟩
  · rw [hw] at hd
    cases hd
  · rw [hd'] at hd
    cases hd
    refine ⟨⟨by dsimp only; omega, by have := hq.occupied_le; dsimp only; omega,
      Nat.mod_lt _ capacity_pos, ?_⟩, ?_, rfl⟩
    · rw [hq.nextin_eq]
      dsimp only
      rw [Nat.mod_add_mod]
      congr 1
      omega
    · have hlen : q.occupied.toNat = (q.occupied - 1).toNat + 1 := by omega
      unfold ChronosQueue.contents
      rw [hlen]
      exact ringContents_pop _ _ _ _ hout

theorem enqueue_contents {q q' : ChronosQueue Ptr Req} {info : TxnInfo Ptr Req} {ticket : UInt64}
    (hq : q.IndicesValid) (he : chronosEnqueueTransaction q info = .done q' ticket) :
    q'.IndicesValid ∧ q'.contents = q.contents ++ [{ info with ticket := ticket }] ∧
      q'.ticketReq = ticket ∧ ticket = q.ticketReq + 1 := by
  rcases enqueue_cases q hq info with ⟨_, hw⟩ | ⟨hin, hlt, he'⟩
  · rw [hw] at he
    cases he
  · rw [he'] at he
    cases he
    have hnonneg := hq.occupied_nonneg
    refine ⟨⟨by dsimp only; omega, by dsimp only; omega, hq.nextout_lt, ?_⟩, ?_, rfl, rfl⟩
    · dsimp only
      rw [hq.nextin_eq, Nat.mod_add_mod, Nat.add_assoc]
      congr 2
      omega
    · have hlen : (q.occupied + 1).toNat = q.occupied.toNat + 1 := by omega
      simp only [ChronosQueue.contents, hlen]
      exact ringContents_push _ _ _ _ _ _ (by omega) hin hq.nextin_eq

/-- A dequeue hands out the oldest entry. -/
theorem fifo_dequeue {q q' : ChronosQueue Ptr Req} {os : List (Outcome Ptr Req)}
    {info : TxnInfo Ptr Req} (hq : Fifo q os) (hd : chronosDequeueTransaction q = .done q' info) :
    Fifo q' (os ++ [.handedOut info]) := by
  obtain ⟨hvalid, hcontents, hticket⟩ := dequeue_contents hq.indices hd
  have hacc : accepted (os ++ [.handedOut info]) = accepted os := by simp [accepted]
  refine ⟨hvalid, ?_, ?_, ?_⟩
  · rw [hacc, hq.entries, hcontents]
    simp [handedOut]
  · rw [hacc, hticket]
    exact hq.ticketReq
  · rw [hacc, ← hq.tickets]
    simp [ticketsReturned]

theorem fifo_enqueue {q q' : ChronosQueue Ptr Req} {os : List (Outcome Ptr Req)}
    {info : TxnInfo Ptr Req} {ticket : UInt64} (hq : Fifo q os)
    (he : chronosEnqueueTransaction q info = .done q' ticket) :
    Fifo q' (os ++ [.accepted info ticket]) := by
  obtain ⟨hvalid, hcontents, hreq, hticket⟩ := enqueue_contents hq.indices he
  have hcount : ticket = UInt64.ofNat ((accepted os).length + 1) := by
    rw [hticket, hq.ticketReq]
    simp
  have hacc : accepted (os ++ [.accepted info ticket]) = accepted os ++ [info] := by simp [accepted]
  refine ⟨hvalid, ?_, ?_, ?_⟩
  · rw [hacc, stamped_append, hq.entries, hcontents, ← hcount]
    simp [handedOut]
  · rw [hacc, hreq, hcount]
    simp
  · rw [hacc, List.length_append, List.length_singleton, List.range_succ, List.map_append,
      ← hq.tickets, hcount]
    simp [ticketsReturned]

/-! ## One step, and every run -/

theorem Fifo.append_silent {q : ChronosQueue Ptr Req} {os : List (Outcome Ptr Req)}
    {o : Outcome Ptr Req} (hq : Fifo q os) (ha : accepted [o] = []) (ht : ticketsReturned [o] = [])
    (hh : handedOut [o] = []) : Fifo q (os ++ [o]) := by
  have hacc : accepted (os ++ [o]) = accepted os := by
    rw [accepted, List.filterMap_append]
    exact (congrArg _ ha).trans (List.append_nil _)
  have htic : ticketsReturned (os ++ [o]) = ticketsReturned os := by
    rw [ticketsReturned, List.filterMap_append]
    exact (congrArg _ ht).trans (List.append_nil _)
  have hhan : handedOut (os ++ [o]) = handedOut os := by
    rw [handedOut, List.filterMap_append]
    exact (congrArg _ hh).trans (List.append_nil _)
  exact ⟨hq.indices, by rw [hacc, hhan]; exact hq.entries, by rw [hacc]; exact hq.ticketReq,
    by rw [hacc, htic]; exact hq.tickets⟩

/-- A step that fails, waits or does nothing leaves the queue as it was. -/
def Untouched (s t : Shared Ptr Req) : Outcome Ptr Req → Prop
  | .fails | .waits | .idle => t.queue = s.queue
  | .aborts => False
  | .accepted _ _ | .handedOut _ => True

theorem enter_fifo {s : Shared Ptr Req} {os : List (Outcome Ptr Req)} (hs : Fifo s.queue os)
    (thread : ℕ) (w : Waiting Ptr Req) :
    Fifo (enter s thread w).1.queue (os ++ [(enter s thread w).2]) ∧
      Untouched s (enter s thread w).1 (enter s thread w).2 := by
  cases w with
  | more =>
    rcases dequeue_cases s.queue hs.indices with ⟨_, hd⟩ | ⟨_, _, hd⟩
    · simp only [enter, hd]
      exact ⟨hs.append_silent rfl rfl rfl, rfl⟩
    · simp only [enter, hd]
      exact ⟨fifo_dequeue hs hd, trivial⟩
  | less info =>
    rcases enqueue_cases s.queue hs.indices info with ⟨_, he⟩ | ⟨_, _, he⟩
    · simp only [enter, he]
      exact ⟨hs.append_silent rfl rfl rfl, rfl⟩
    · simp only [enter, he]
      exact ⟨fifo_enqueue hs he, trivial⟩

theorem step_fifo {s : Shared Ptr Req} {os : List (Outcome Ptr Req)} (hs : Fifo s.queue os)
    (e : Event Ptr Req) :
    Fifo (step s e).1.queue (os ++ [(step s e).2]) ∧ Untouched s (step s e).1 (step s e).2 := by
  cases e with
  | call thread c =>
    cases hw : s.waiting thread with
    | some w =>
      simp only [step, hw]
      exact ⟨hs.append_silent rfl rfl rfl, rfl⟩
    | none =>
      match c with
      | .dequeue false =>
        simp only [step, hw]
        exact ⟨hs.append_silent rfl rfl rfl, rfl⟩
      | .dequeue true =>
        simp only [step, hw]
        exact enter_fifo hs thread .more
      | .enqueue none =>
        simp only [step, hw]
        exact ⟨hs.append_silent rfl rfl rfl, rfl⟩
      | .enqueue (some info) =>
        simp only [step, hw]
        exact enter_fifo hs thread (.less info)
  | wake thread timeToDie =>
    cases hw : s.waiting thread with
    | none =>
      simp only [step, hw]
      exact ⟨hs.append_silent rfl rfl rfl, rfl⟩
    | some w =>
      cases timeToDie with
      | true =>
        simp only [step, hw, if_true]
        exact ⟨hs.append_silent rfl rfl rfl, rfl⟩
      | false =>
        simp only [step, hw, Bool.false_eq_true, if_false]
        exact enter_fifo hs thread w

theorem run_fifo {s : Shared Ptr Req} {os : List (Outcome Ptr Req)} (hs : Fifo s.queue os)
    (es : List (Event Ptr Req)) : Fifo (run s es).1.queue (os ++ (run s es).2) := by
  induction es generalizing s os with
  | nil => simpa [run] using hs
  | cons e es ih =>
    have h := ih (step_fifo hs e).1
    simpa [run, List.append_assoc] using h

/-- The entry that is handed out in place `k` is the one accepted in place `k`,
with ticket `k + 1`. -/
theorem Fifo.handedOut_getElem? {q : ChronosQueue Ptr Req} {os : List (Outcome Ptr Req)}
    (hq : Fifo q os) {k : ℕ} {info : TxnInfo Ptr Req} (hk : (handedOut os)[k]? = some info) :
    ∃ given, (accepted os)[k]? = some given ∧
      info = { given with ticket := UInt64.ofNat (k + 1) } := by
  have hlt : k < (handedOut os).length := (List.getElem?_eq_some_iff.mp hk).1
  have hs : (stamped (accepted os))[k]? = some info := by
    rw [hq.entries, List.getElem?_append_left hlt]
    exact hk
  rw [stamped_getElem?] at hs
  obtain ⟨given, hg, he⟩ := Option.map_eq_some_iff.mp hs
  exact ⟨given, hg, he.symm⟩

/-- A dequeue from a queue that is not empty hands out the oldest entry. -/
theorem dequeue_of_contents {q : ChronosQueue Ptr Req} (hq : q.IndicesValid)
    {head : TxnInfo Ptr Req} {rest : List (TxnInfo Ptr Req)}
    (hcontents : q.contents = head :: rest) :
    ∃ q', chronosDequeueTransaction q = .done q' head ∧ q'.contents = rest := by
  rcases dequeue_cases q hq with ⟨hempty, -⟩ | ⟨_, _, hd⟩
  · have hnone : q.occupied.toNat = 0 := Int.toNat_eq_zero.mpr hempty
    rw [ChronosQueue.contents, hnone] at hcontents
    cases hcontents
  · obtain ⟨-, hpopped, -⟩ := dequeue_contents hq hd
    obtain ⟨hhead, hrest⟩ := List.cons.inj (hpopped.symm.trans hcontents)
    exact ⟨_, by rw [hd, hhead], hrest⟩

theorem enqueue_of_room {q : ChronosQueue Ptr Req} (hq : q.IndicesValid) (info : TxnInfo Ptr Req)
    (hroom : q.occupied < CHRONOS_READY_QUEUE_SIZE) :
    ∃ q' ticket, chronosEnqueueTransaction q info = .done q' ticket ∧
      q'.contents = q.contents ++ [{ info with ticket := ticket }] := by
  rcases enqueue_cases q hq info with ⟨hfull, -⟩ | ⟨_, _, he⟩
  · exact absurd hroom (not_lt.mpr hfull)
  · exact ⟨_, _, he, (enqueue_contents hq he).2.1⟩

/-- The ready queue is a bounded FIFO over every interleaving of its callers
and every answer of `timeToDieFp`, and the wrappers hand back what was given. It
refuses nobody: what is in it is handed out, and what there is room for is accepted. -/
theorem readyQueue_bounded_fifo (zeroReq : Req) (es : List (Event Ptr Req)) :
    let s := (run (Shared.zeroed zeroReq : Shared Ptr Req) es).1
    let os := (run (Shared.zeroed zeroReq : Shared Ptr Req) es).2
    (0 ≤ s.queue.occupied ∧ s.queue.occupied ≤ CHRONOS_READY_QUEUE_SIZE ∧
      (s.queue.nextin : ℤ) = (s.queue.nextout + s.queue.occupied) % CHRONOS_READY_QUEUE_SIZE) ∧
    stamped (accepted os) = handedOut os ++ s.queue.contents ∧
    ticketsReturned os = (List.range (accepted os).length).map (fun k => UInt64.ofNat (k + 1)) ∧
    (∀ e, Untouched s (step s e).1 (step s e).2) ∧
    (∀ (k : ℕ) (request : Req) (ts : Option ChronosTime) (ticketRet : Bool)
      (txnDone txnRc : Option Ptr)
      (given info : TxnInfo Ptr Req),
      chronosEnqueueUserTransaction zeroReq request ts ticketRet txnDone txnRc =
        .enqueue (some given) →
      (accepted os)[k]? = some given → (handedOut os)[k]? = some info →
      ∃ t, ts = some t ∧
        chronosDequeueUserTransaction info = ⟨request, t, UInt64.ofNat (k + 1), txnDone, txnRc⟩) ∧
    (∀ (k : ℕ) (request : Option Req) (ts : Option ChronosTime) (given info : TxnInfo Ptr Req),
      chronosEnqueueSystemTransaction zeroReq request ts = .enqueue (some given) →
      (accepted os)[k]? = some given → (handedOut os)[k]? = some info →
      ∃ r t, request = some r ∧ ts = some t ∧ chronosDequeueSystemTransaction info = (r, t)) ∧
    (∀ head rest, s.queue.contents = head :: rest →
      ∃ q, chronosDequeueTransaction s.queue = .done q head ∧ q.contents = rest) ∧
    ∀ info, s.queue.occupied < CHRONOS_READY_QUEUE_SIZE →
      ∃ q ticket, chronosEnqueueTransaction s.queue info = .done q ticket ∧
        q.contents = s.queue.contents ++ [{ info with ticket := ticket }] := by
  intro s os
  have hf : Fifo s.queue os := by
    have h := run_fifo (s := Shared.zeroed zeroReq) (fifo_zeroed zeroReq) es
    simpa using h
  refine ⟨⟨hf.indices.occupied_nonneg, hf.indices.occupied_le, ?_⟩, hf.entries, hf.tickets,
    fun e => (step_fifo hf e).2, ?_, ?_, fun _ _ => dequeue_of_contents hf.indices,
      enqueue_of_room hf.indices⟩
  · have hin := congrArg (fun n : ℕ => (n : ℤ)) hf.indices.nextin_eq
    have hnonneg := hf.indices.occupied_nonneg
    simp only [Int.natCast_mod, Int.natCast_add, Int.toNat_of_nonneg hnonneg] at hin
    exact hin
  · intro k request ts ticketRet txnDone txnRc given info hc ha hh
    obtain ⟨given', hg, rfl⟩ := hf.handedOut_getElem? hh
    obtain rfl : given = given' := Option.some.inj (ha.symm.trans hg)
    match ts, ticketRet with
    | none, _ => simp [chronosEnqueueUserTransaction] at hc
    | some t, false => simp [chronosEnqueueUserTransaction] at hc
    | some t, true =>
      simp only [chronosEnqueueUserTransaction, Call.enqueue.injEq, Option.some.injEq] at hc
      subst hc
      exact ⟨t, rfl, rfl⟩
  · intro k request ts given info hc ha hh
    obtain ⟨given', hg, rfl⟩ := hf.handedOut_getElem? hh
    obtain rfl : given = given' := Option.some.inj (ha.symm.trans hg)
    match request, ts with
    | none, _ => simp [chronosEnqueueSystemTransaction] at hc
    | some r, none => simp [chronosEnqueueSystemTransaction] at hc
    | some r, some t =>
      simp only [chronosEnqueueSystemTransaction, Call.enqueue.injEq, Option.some.injEq] at hc
      subst hc
      exact ⟨r, t, rfl, rfl, rfl⟩

/-! ## A run that wraps around -/

/-- One thread enqueues and another one dequeues, so many times. -/
def passThrough (info : TxnInfo Ptr Req) : ℕ → List (Event Ptr Req)
  | 0 => []
  | k + 1 => .call 0 (.enqueue (some info)) :: .call 1 (.dequeue true) :: passThrough info k

/-- Nobody waits and the queue is empty. -/
structure Idle (s : Shared Ptr Req) : Prop where
  indices : s.queue.IndicesValid
  empty : s.queue.occupied = 0
  outside : ∀ thread, s.waiting thread = none

theorem Idle.round {s : Shared Ptr Req} (hs : Idle s) (info : TxnInfo Ptr Req) :
    let t := step s (.call 0 (.enqueue (some info)))
    let u := step t.1 (.call 1 (.dequeue true))
    Idle u.1 ∧ u.1.queue.nextout = (s.queue.nextout + 1) % CHRONOS_READY_QUEUE_SIZE ∧
      accepted [t.2, u.2] = [info] := by
  rcases enqueue_cases s.queue hs.indices info with ⟨hfull, -⟩ | ⟨_, _, he⟩
  · rw [hs.empty] at hfull
    norm_num at hfull
  · have hvalid := (enqueue_contents hs.indices he).1
    simp only [step, hs.outside, enter, he, Function.update_of_ne one_ne_zero]
    rcases dequeue_cases _ hvalid with ⟨hnone, -⟩ | ⟨_, _, hd⟩
    · have hone : s.queue.occupied + 1 ≤ 0 := hnone
      rw [hs.empty] at hone
      norm_num at hone
    · rw [hd]
      refine ⟨⟨(dequeue_contents hvalid hd).1, by simp [hs.empty], fun thread => ?_⟩, rfl, rfl⟩
      dsimp only
      rw [Function.update_apply, Function.update_apply, hs.outside, ite_self, ite_self]

theorem Idle.passThrough {s : Shared Ptr Req} (hs : Idle s) (info : TxnInfo Ptr Req) (k : ℕ) :
    Idle (run s (passThrough info k)).1 ∧
      (run s (ReadyQueue.passThrough info k)).1.queue.nextout % CHRONOS_READY_QUEUE_SIZE =
        (s.queue.nextout + k) % CHRONOS_READY_QUEUE_SIZE ∧
      accepted (run s (ReadyQueue.passThrough info k)).2 = List.replicate k info := by
  induction k generalizing s with
  | zero => exact ⟨hs, rfl, rfl⟩
  | succ k ih =>
    obtain ⟨hidle, hout, hone⟩ := hs.round info
    obtain ⟨hrest, hnext, hmore⟩ := ih hidle
    refine ⟨hrest, hnext.trans ?_, ?_⟩
    · rw [hout, Nat.mod_add_mod, Nat.add_assoc, Nat.add_comm 1 k]
    · rw [List.replicate_succ, ← hmore, ← List.singleton_append, ← hone]
      exact List.filterMap_append (l := [_, _])

theorem idle_zeroed (zeroReq : Req) : Idle (Shared.zeroed zeroReq : Shared Ptr Req) :=
  ⟨(fifo_zeroed zeroReq).indices, rfl, fun _ => rfl⟩

/-- After 1025 requests the indices have wrapped around, the entries have come out as they went in,
and the next one is accepted. -/
theorem readyQueue_bounded_fifo_wrapped :
    let info : TxnInfo ℕ ℕ := userTxnInfo 0 7 ⟨3, 0⟩ (some 1) (some 2)
    let s := (run (Shared.zeroed 0) (passThrough info 1025)).1
    let os := (run (Shared.zeroed 0) (passThrough info 1025)).2
    s.queue.nextout = 1 ∧ (accepted os).length = 1025 ∧
      stamped (accepted os) = handedOut os ++ s.queue.contents ∧
      ∃ q ticket, chronosEnqueueTransaction s.queue info = .done q ticket ∧
        q.contents = s.queue.contents ++ [{ info with ticket := ticket }] := by
  intro info
  generalize hk : (1025 : ℕ) = k
  intro s os
  obtain ⟨hidle, hout, haccepted⟩ := (idle_zeroed 0).passThrough info k
  obtain ⟨-, hentries, -, -, -, -, -, henqueue⟩ := readyQueue_bounded_fifo 0 (passThrough info k)
  rw [Nat.mod_eq_of_lt hidle.indices.nextout_lt] at hout
  refine ⟨hout.trans (by rw [← hk]; rfl), ?_, hentries, henqueue info ?_⟩
  · rw [haccepted]
    exact List.length_replicate
  · rw [hidle.empty]
    norm_num

end Chronos.ReadyQueue
