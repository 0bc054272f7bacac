import LibSwitch.Framing
import LibSwitch.RequestSafety

namespace LibSwitch.SessionEnd

open LibSwitch.PointerTable LibSwitch.ByteOrder LibSwitch.ByteBuffer LibSwitch.Common
open LibSwitch.ModuleLoad LibSwitch.SockComm LibSwitch.Requests LibSwitch.Sessions
open LibSwitch.Handlers LibSwitch.StubLibraries LibSwitch.MessageDispatch LibSwitch.Framing
open LibSwitch.RequestSafety

variable {H C : Type}

def Closing : Recv → Prop
  | .data c => c.bytes = []
  | .error => False

instance : DecidablePred Closing
  | .data c => inferInstanceAs (Decidable (c.bytes = []))
  | .error => inferInstanceAs (Decidable False)

def NonEmpty : Recv → Prop
  | .data c => c.bytes ≠ []
  | .error => False

instance : DecidablePred NonEmpty
  | .data c => inferInstanceAs (Decidable (c.bytes ≠ []))
  | .error => inferInstanceAs (Decidable False)

def Quiet (es : List (Event H C)) : Prop :=
  calls es = [] ∧ ∀ len bytes, Event.send len bytes ∉ es

/-- From the first closing `recv` on all rounds are quiet, and in every prefix of the session
the handler calls are at most as many as the receives that returned bytes. -/
structure EndsAtClose (recvs : List Recv) (turns : List (List (Event H C))) : Prop where
  quiet : ∀ (i j : Nat) rv es, j ≤ i → recvs[j]? = some rv → Closing rv → turns[i]? = some es →
    Quiet es
  calls_le : ∀ n, (calls (turns.take n).flatten).length ≤
    ((recvs.take n).filter fun rv => NonEmpty rv).length

def Awake (srv : Server H C) : Session → Prop
  | .live msg => ∃ t, target srv msg = .ok t
  | .closed | .dead => True

theorem step_awake {srv : Server H C} {s s' : Session} {rv : Recv} {es : List (Event H C)}
    (h : step srv s rv = some (es, s')) : Awake srv s' := by
  cases s with
  | closed | dead => cases h
  | live msg =>
    cases rv with
    | error =>
      cases h
      trivial
    | data c =>
      simp only [step, Option.some.injEq, Prod.mk.injEq] at h
      rw [← h.2]
      cases hlive : (serveChunk srv msg c).2 with
      | none => trivial
      | some msg' =>
        obtain ⟨⟨t, ht⟩, hsame⟩ := serve_target hlive
        exact ⟨t, hsame.trans ht⟩

theorem send_mem_reply (msg : Msg) (len : Int) :
    ∃ n bytes, Event.send n bytes ∈ (reply msg len : List (Event H C) × Option Msg).1 := by
  simp only [reply]
  split
  · exact ⟨_, _, List.mem_singleton_self _⟩
  · exact ⟨_, _, List.mem_cons_self⟩

theorem not_quiet_of_target {srv : Server H C} {msg : Msg} {t : Option H}
    (h : target srv msg = .ok t) (len : Int) : ¬ Quiet (serve srv msg len).1 := by
  rintro ⟨hcalls, hsends⟩
  cases t with
  | none =>
    rw [serve_none h] at hsends
    obtain ⟨n, bytes, hmem⟩ := send_mem_reply (H := H) (C := C) msg len
    exact hsends n bytes hmem
  | some fn =>
    have hsel : selected srv msg = some ⟨hdrType msg, hdrMessageId msg, fn, param msg⟩ := by
      rw [target] at h
      rw [selected, h]
    rw [calls_serve, hsel] at hcalls
    cases hcalls

theorem step_not_quiet {srv : Server H C} {s s' : Session} {rv : Recv}
    {es : List (Event H C)} (ha : Awake srv s) (hrv : Closing rv)
    (h : step srv s rv = some (es, s')) : ¬ Quiet es := by
  cases s with
  | closed | dead => cases h
  | live msg =>
    cases rv with
    | error => cases hrv
    | data c =>
      simp only [step, serveChunk, Option.some.injEq, Prod.mk.injEq] at h
      obtain ⟨t, ht⟩ := ha
      rw [← h.1, receive_nil msg hrv]
      exact not_quiet_of_target ht _

theorem closing_tail {rv : Recv} {recvs : List Recv} (hc : ∃ rv' ∈ rv :: recvs, Closing rv')
    (hrv : ¬ Closing rv) : ∃ rv' ∈ recvs, Closing rv' := by
  obtain ⟨rv', hmem, hrv'⟩ := hc
  obtain rfl | hmem := List.mem_cons.mp hmem
  · exact absurd hrv' hrv
  · exact ⟨rv', hmem, hrv'⟩

/-- The closing `recv` of a session that has served a request is answered once more. -/
theorem run_not_quiet {srv : Server H C} {s t : Session} {recvs : List Recv}
    {turns : List (List (Event H C))} (ha : Awake srv s) (h : Run srv s recvs turns t)
    (hc : ∃ rv ∈ recvs, Closing rv) :
    ∃ (j : Nat) (rv : Recv) (es : List (Event H C)), recvs[j]? = some rv ∧ Closing rv ∧
      turns[j]? = some es ∧ ¬ Quiet es := by
  induction h with
  | nil =>
    obtain ⟨rv, hmem, -⟩ := hc
    cases hmem
  | @cons s s' t rv es recvs turns hstep hrun ih =>
    by_cases hrv : Closing rv
    · exact ⟨0, rv, es, rfl, hrv, rfl, step_not_quiet ha hrv hstep⟩
    · obtain ⟨j, rv', es', hj, hrv', hes, hn⟩ := ih (step_awake hstep) (closing_tail hc hrv)
      exact ⟨j + 1, rv', es', hj, hrv', hes, hn⟩

theorem run_calls_le {srv : Server H C} {s t : Session} {recvs : List Recv}
    {turns : List (List (Event H C))} (h : Run srv s recvs turns t)
    (hc : ∀ rv ∈ recvs, ¬ Closing rv) (n : Nat) :
    (calls (turns.take n).flatten).length ≤
      ((recvs.take n).filter fun rv => NonEmpty rv).length := by
  induction h generalizing n with
  | nil => simp [calls]
  | @cons s s' t rv es recvs turns hstep hrun ih =>
    cases n with
    | zero => exact Nat.zero_le _
    | succ n =>
      have hrest := ih (fun rv' hmem => hc rv' (by simp [hmem])) n
      rw [List.take_succ_cons, List.take_succ_cons, List.flatten_cons, calls_append,
        List.length_append, List.filter_cons]
      cases rv with
      | error =>
        have hes : es = [] := by
          cases s with
          | closed | dead => cases hstep
          | live msg =>
            cases hstep
            rfl
        rw [hes, if_neg (by rw [decide_eq_true_iff]; exact not_false)]
        change 0 + _ ≤ _
        omega
      | data c =>
        have hone := step_calls_length hstep
        have hne : NonEmpty (.data c) := hc (.data c) (by simp)
        rw [if_pos (by simpa using hne), List.length_cons]
        omega

theorem endsAtClose_of_open {srv : Server H C} {s t : Session} {recvs : List Recv}
    {turns : List (List (Event H C))} (h : Run srv s recvs turns t)
    (hc : ∀ rv ∈ recvs, ¬ Closing rv) : EndsAtClose recvs turns := by
  refine ⟨?_, run_calls_le h hc⟩
  intro i j rv es _ hj hrv _
  exact absurd hrv (hc rv (List.mem_of_getElem? hj))

theorem not_endsAtClose {srv : Server H C} {s t : Session} {recvs : List Recv}
    {turns : List (List (Event H C))} (ha : Awake srv s) (h : Run srv s recvs turns t)
    (hc : ∃ rv ∈ recvs, Closing rv) : ¬ EndsAtClose recvs turns := by
  intro hends
  obtain ⟨j, rv, es, hj, hrv, hes, hn⟩ := run_not_quiet ha h hc
  exact hn (hends.quiet j j rv es (Nat.le_refl j) hj hrv hes)

theorem target_zeros (srv : Server H C) : target srv (zeros szBuf) = lookup srv 0 0 := by
  have htype : hdrType (zeros szBuf) = 0 := by decide +kernel
  have hid : hdrMessageId (zeros szBuf) = 0 := by decide +kernel
  rw [target, htype, hid]

/-- The protocol of type 0 is registered without messages, so its first row does not exist. -/
def NoFirstRow (srv : Server H C) : Prop :=
  ∃ p, srv.protocols.slots 0 = some p ∧ p.msgCnt = 0

theorem target_zeros_error {srv : Server H C} (h : NoFirstRow srv) :
    target srv (zeros szBuf) = .error .messageIndex := by
  obtain ⟨p, hs, hp⟩ := h
  have hrow : p.row 0 = none := by
    rw [← Option.not_isSome_iff_eq_none, p.row_isSome]
    omega
  have hl := lookup_slot hs (by decide) 0
  rw [hrow] at hl
  rw [target_zeros]
  exact hl

theorem start_awake {srv : Server H C} (h : ¬ NoFirstRow srv) : Awake srv start := by
  change ∃ t, target srv (zeros szBuf) = .ok t
  rw [target_zeros]
  cases hs : srv.protocols.slots 0 with
  | none => exact ⟨none, lookup_free ⟨by decide, by decide⟩ hs 0⟩
  | some p =>
    have hp : p.msgCnt ≠ 0 := fun he => h ⟨p, hs, he⟩
    obtain ⟨row, hrow⟩ :=
      Option.isSome_iff_exists.mp ((p.row_isSome 0).mpr ⟨by omega, by omega⟩)
    have hl := lookup_slot hs (by decide) 0
    rw [hrow] at hl
    exact ⟨row.func, hl⟩

theorem start_closing {srv : Server H C} (h : NoFirstRow srv) {rv : Recv} (hrv : Closing rv)
    {es : List (Event H C)} {s : Session} (hstep : step srv start rv = some (es, s)) :
    es = [.fault .messageIndex] ∧ s = .dead := by
  cases rv with
  | error => cases hrv
  | data c =>
    simp only [start, step, serveChunk, Option.some.injEq, Prod.mk.injEq] at hstep
    rw [receive_nil _ hrv, serve_error (target_zeros_error h)] at hstep
    exact ⟨hstep.1.symm, hstep.2.symm⟩

theorem endsAtClose_fault (rv : Recv) (f : Fault) :
    EndsAtClose [rv] [([.fault f] : List (Event H C))] := by
  constructor
  · intro i j rv' es _ _ _ hes
    have hmem := List.mem_of_getElem? hes
    rw [List.mem_singleton.mp hmem]
    refine ⟨rfl, ?_⟩
    intro len bytes hsend
    cases List.mem_singleton.mp hsend
  · intro n
    cases n with
    | zero => exact Nat.zero_le _
    | succ n =>
      rw [List.take_of_length_le (by simp)]
      exact Nat.zero_le _

/-- A session is quiet from its close on exactly when it never sees the close, or sees nothing
else and the cleared buffer selects a row that does not exist: a `recv` of no bytes is taken
for a message, and the buffer still holds the last one. -/
theorem endsAtClose_iff {srv : Server H C} {recvs : List Recv}
    {turns : List (List (Event H C))} {t : Session} (h : Run srv start recvs turns t) :
    EndsAtClose recvs turns ↔
      (∀ rv ∈ recvs, ¬ Closing rv) ∨
        (∃ rv rest, recvs = rv :: rest ∧ Closing rv) ∧ NoFirstRow srv := by
  by_cases hopen : ∀ rv ∈ recvs, ¬ Closing rv
  · exact iff_of_true (endsAtClose_of_open h hopen) (Or.inl hopen)
  have hc : ∃ rv ∈ recvs, Closing rv := by
    by_contra hn
    exact hopen fun rv hmem hrv => hn ⟨rv, hmem, hrv⟩
  by_cases hrow : NoFirstRow srv
  · cases h with
    | nil => exact absurd (fun rv hmem => by cases hmem) hopen
    | @cons _ s' _ rv es recvs turns hstep hrun =>
      by_cases hrv : Closing rv
      · -- the process died on this first `recv`
        obtain ⟨rfl, rfl⟩ := start_closing hrow hrv hstep
        refine iff_of_true ?_ (Or.inr ⟨⟨rv, recvs, rfl, hrv⟩, hrow⟩)
        cases hrun with
        | nil => exact endsAtClose_fault rv _
        | cons hdead _ => cases hdead
      · obtain ⟨j, rv', es', hj, hrv', hes, hn⟩ :=
          run_not_quiet (step_awake hstep) hrun (closing_tail hc hrv)
        apply iff_of_false
        · intro hends
          exact hn (hends.quiet (j + 1) (j + 1) rv' es' (Nat.le_refl _) hj hrv' hes)
        · rintro (ho | ⟨⟨rv'', rest, heq, hfirst⟩, -⟩)
          · exact hopen ho
          · cases heq
            exact hrv hfirst
  · apply iff_of_false (not_endsAtClose (start_awake hrow) h hc)
    rintro (ho | ⟨-, hr⟩)
    · exact hopen ho
    · exact hrow hr

def close : Recv := .data ⟨[], Nat.zero_le szBuf⟩

theorem dump_endsAtClose : ∃ r turns t, load appFuncs stubDir = some r ∧
    Run (server r) start [dump.recv] turns t ∧ EndsAtClose [dump.recv] turns := by
  obtain ⟨r, hr, -⟩ := stubDir_bridge_slot
  have hrun : Run (server r) start [dump.recv] _ _ := Reactive.Run.cons rfl (Reactive.Run.nil _)
  refine ⟨r, _, _, hr, hrun, (endsAtClose_iff hrun).mpr (Or.inl ?_)⟩
  intro rv hmem
  rw [List.mem_singleton.mp hmem]
  decide +kernel

/-- After its only request, a session answers the close as if the request came again. -/
theorem close_answered : ∃ r turns t, load appFuncs stubDir = some r ∧
    Run (server r) start [dump.recv, close] turns t ∧ ¬ EndsAtClose [dump.recv, close] turns := by
  obtain ⟨r, hr, -, hp⟩ := stubDir_wellFormed
  have hslot : (server r).protocols.slots 1 = some bridge := hp.slot_eq 1
  obtain ⟨es, msg, -, hstep, -, -⟩ := step_answers (dump_deliverable hslot) (zeros szBuf)
  have hrun : Run (server r) start [dump.recv, close] _ _ :=
    Reactive.Run.cons hstep (Reactive.Run.cons rfl (Reactive.Run.nil _))
  have hfirst : ¬ NoFirstRow (server r) := by
    rintro ⟨p, hs, hcnt⟩
    have hflow : (server r).protocols.slots 0 = some flow := hp.slot_eq 0
    obtain rfl := Option.some.inj (hflow.symm.trans hs)
    cases hcnt
  exact ⟨r, _, _, hr, hrun, not_endsAtClose (start_awake hfirst) hrun ⟨close, by simp, rfl⟩⟩

end LibSwitch.SessionEnd
