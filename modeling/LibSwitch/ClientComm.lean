import LibSwitch.Listener
import LibSwitch.Requests

namespace LibSwitch.ClientComm

open LibSwitch.PointerTable LibSwitch.ByteBuffer LibSwitch.Common LibSwitch.Reactive
open LibSwitch.SockComm LibSwitch.Requests

variable {H C : Type}

def szReply : Nat := 128

/-- `send_main_app_msg` of the client, the byte streams to the session and from it, and the
session. The client holds the requests it has still to send and what its `recv` returned for
each of the others. -/
structure Conversation where
  todo : List Request
  waiting : Bool
  up : List UInt8
  session : Session
  down : List UInt8
  got : List (List UInt8)

/-- A receive comes with the number of bytes that have arrived by then. -/
inductive Act
  | send
  | serve (arrived : Nat)
  | receive (arrived : Nat)

def chunkOf (bytes : List UInt8) (arrived : Nat) : Chunk :=
  ⟨bytes.take (min arrived szBuf), by
    rw [List.length_take]
    omega⟩

/-- The client sends a request and calls `recv`, which blocks as long as nothing has arrived. Its
result is never 0: the listener does not close its `client_fd`, so that the stream has no end
even where the session has ended. -/
def step (srv : Server H C) (c : Conversation) : Act → Option (List (Event H C) × Conversation)
  | .send =>
    match c.todo with
    | r :: todo =>
      if c.waiting then none
      else some ([], { c with todo := todo, waiting := true, up := c.up ++ r.bytes })
    | [] => none
  | .serve arrived =>
    if arrived = 0 || c.up.isEmpty then none
    else
      (SockComm.step srv c.session (.data (chunkOf c.up arrived))).map fun r =>
        (r.1, { c with
          up := c.up.drop (min arrived szBuf), session := r.2, down := c.down ++ sent r.1 })
  | .receive arrived =>
    if arrived = 0 || c.down.isEmpty || !c.waiting then none
    else
      some ([], { c with
        waiting := false
        down := c.down.drop (min arrived szReply)
        got := c.got ++ [c.down.take (min arrived szReply)] })

abbrev Run (srv : Server H C) := Reactive.Run (step srv)

def start (reqs : List Request) : Conversation := ⟨reqs, false, [], SockComm.start, [], []⟩

def Conversation.Done (c : Conversation) : Prop := c.todo = [] ∧ c.waiting = false

/-- Everything that is under way arrives at once, as far as it fits. -/
def Whole : Act → Prop
  | .serve arrived => szBuf ≤ arrived
  | .receive arrived => szReply ≤ arrived
  | _ => True

/-- Where the conversation stands after a number of acts, when it goes request by request: the
requests up to `post` are served from the buffer `msg`, in the given turns. -/
inductive Lockstep (srv : Server H C) (post : List Request) :
    Msg → List Request → List (List (Event H C)) → List (List UInt8) → Nat →
      List (Event H C) → Conversation → Prop
  | ready {msg : Msg} {reqs : List Request} {turns : List (List (Event H C))}
      {got : List (List UInt8)} :
      Lockstep srv post msg reqs turns got 0 [] ⟨reqs ++ post, false, [], .live msg, [], got⟩
  | asked {msg : Msg} {r : Request} {reqs : List Request} {turns : List (List (Event H C))}
      {got : List (List UInt8)} :
      Lockstep srv post msg (r :: reqs) turns got 1 []
        ⟨reqs ++ post, true, r.bytes, .live msg, [], got⟩
  | answered {msg : Msg} {r : Request} {reqs : List Request} {turns : List (List (Event H C))}
      {got : List (List UInt8)} {es : List (Event H C)} {s : Session}
      (hs : SockComm.step srv (.live msg) r.recv = some (es, s)) :
      Lockstep srv post msg (r :: reqs) (es :: turns) got 2 es
        ⟨reqs ++ post, true, [], s, sent es, got⟩
  | next {msg msg' : Msg} {r : Request} {reqs : List Request} {turns : List (List (Event H C))}
      {got : List (List UInt8)} {es fs : List (Event H C)} {n : Nat} {c : Conversation}
      (hs : SockComm.step srv (.live msg) r.recv = some (es, .live msg'))
      (hc : Lockstep srv post msg' reqs turns (got ++ [sent es]) n fs c) :
      Lockstep srv post msg (r :: reqs) (es :: turns) got (n + 3) (es ++ fs) c

/-- What the requests lead to when they are served one by one: each turn answers with what the
client can receive at once, and the last one may end the session without an answer. -/
structure Serves (srv : Server H C) (post : List Request) (msg : Msg) (reqs : List Request)
    (turns : List (List (Event H C))) (s : Session) : Prop where
  run : SockComm.Run srv (.live msg) (reqs.map Request.recv) turns s
  short : ∀ t ∈ turns, (sent t).length ≤ szReply
  all : (∃ m, s = .live m) → post = []
  silent : s = .dead → ∀ t, turns.getLast? = some t → sent t = []

variable {srv : Server H C} {post reqs : List Request} {msg : Msg} {s : Session} {r : Request}
variable {turns : List (List (Event H C))} {got : List (List UInt8)} {n : Nat}
variable {es o : List (Event H C)} {c c' : Conversation} {a : Act}

theorem chunkOf_bytes (r : Request) {arrived : Nat} (h : szBuf ≤ arrived) :
    chunkOf r.bytes arrived = r.chunk := by
  have hlen : r.bytes.length ≤ min arrived szBuf := by
    rw [r.length_bytes, Nat.min_eq_right h]
    exact r.fits
  simp only [chunkOf, Request.chunk, List.take_of_length_le hlen]

theorem bytes_isEmpty (r : Request) : r.bytes.isEmpty = false := by
  rw [List.isEmpty_eq_false_iff_exists_mem]
  exact List.exists_mem_of_length_pos (by rw [r.length_bytes, szHdr]; omega)

theorem step_data {ch : Chunk} (h : SockComm.step srv (.live msg) (.data ch) = some (es, s)) :
    (∃ m, s = .live m) ∨ s = .dead := by
  rw [SockComm.step, Option.some.injEq, Prod.mk.injEq] at h
  obtain ⟨-, rfl⟩ := h
  cases (serveChunk srv msg ch).2 with
  | none => exact Or.inr rfl
  | some m => exact Or.inl ⟨m, rfl⟩

theorem Serves.tail {msg' : Msg} {t : List (Event H C)}
    (h : Serves srv post msg (r :: reqs) (t :: turns) s)
    (hs : SockComm.step srv (.live msg) r.recv = some (t, .live msg')) :
    Serves srv post msg' reqs turns s := by
  refine ⟨?_, fun u hu => h.short u (List.mem_cons_of_mem t hu), h.all, ?_⟩
  · obtain ⟨turns', heq, hrun⟩ := (Run.cons_iff hs).mp h.run
    cases heq
    exact hrun
  · intro hdead u hu
    apply h.silent hdead u
    rw [List.getLast?_cons, hu]
    rfl

theorem Serves.head (h : Serves srv post msg (r :: reqs) turns s) :
    ∃ t turns' s₁, turns = t :: turns' ∧ SockComm.step srv (.live msg) r.recv = some (t, s₁) := by
  obtain ⟨hrun, -, -, -⟩ := h
  cases hrun with
  | cons hs _ => exact ⟨_, _, _, rfl, hs⟩

theorem Serves.dead {t : List (Event H C)}
    (h : Serves srv post msg (r :: reqs) (t :: turns) s)
    (hs : SockComm.step srv (.live msg) r.recv = some (t, .dead)) : sent t = [] := by
  obtain ⟨turns', heq, hrun⟩ := (Run.cons_iff hs).mp h.run
  cases heq
  cases reqs with
  | nil =>
    cases hrun
    exact h.silent rfl t rfl
  | cons r' reqs =>
    cases hrun with
    | cons hs' _ => cases hs'

theorem step_ready (hserves : Serves srv post msg reqs turns s)
    (h : step srv ⟨reqs ++ post, false, [], .live msg, [], got⟩ a = some (o, c')) :
    Lockstep srv post msg reqs turns got 1 o c' := by
  cases a with
  | send =>
    cases reqs with
    | nil =>
      obtain ⟨hrun, -, hpost, -⟩ := hserves
      cases hrun
      rw [hpost ⟨msg, rfl⟩] at h
      cases h
    | cons r reqs =>
      cases h
      exact .asked
  | serve arrived => simp [step] at h
  | receive arrived => simp [step] at h

theorem step_asked (hserves : Serves srv post msg (r :: reqs) turns s) (ha : Whole a)
    (h : step srv ⟨reqs ++ post, true, r.bytes, .live msg, [], got⟩ a = some (o, c')) :
    Lockstep srv post msg (r :: reqs) turns got 2 o c' := by
  cases a with
  | send =>
    simp only [step] at h
    split at h <;> cases h
  | serve arrived =>
    obtain ⟨t, turns', s₁, rfl, hs⟩ := hserves.head
    have hpos : arrived ≠ 0 := by
      rintro rfl
      exact absurd (show szBuf ≤ 0 from ha) (by decide)
    have hdrop : r.bytes.drop (min arrived szBuf) = [] := by
      rw [List.drop_eq_nil_iff, r.length_bytes, Nat.min_eq_right ha]
      exact r.fits
    simp only [step, bytes_isEmpty, chunkOf_bytes r ha, hdrop] at h
    rw [if_neg (by simp [hpos]), show Recv.data r.chunk = r.recv from rfl, hs] at h
    cases h
    exact .answered hs
  | receive arrived => simp [step] at h

theorem step_answered {t : List (Event H C)} {s₁ : Session}
    (hserves : Serves srv post msg (r :: reqs) (t :: turns) s)
    (hs : SockComm.step srv (.live msg) r.recv = some (t, s₁)) (ha : Whole a)
    (h : step srv ⟨reqs ++ post, true, [], s₁, sent t, got⟩ a = some (o, c')) :
    ∃ m, s₁ = .live m ∧ o = [] ∧ c' = ⟨reqs ++ post, false, [], .live m, [], got ++ [sent t]⟩ := by
  cases a with
  | send =>
    simp only [step] at h
    split at h <;> cases h
  | serve arrived => simp [step] at h
  | receive arrived =>
    simp only [step] at h
    split at h
    · cases h
    · next hne =>
      have hshort := hserves.short t List.mem_cons_self
      obtain ⟨m, rfl⟩ | rfl := step_data hs
      · cases h
        have hle : (sent t).length ≤ min arrived szReply := by
          rw [Nat.min_eq_right ha]
          exact hshort
        rw [List.take_of_length_le hle, List.drop_of_length_le hle]
        exact ⟨m, rfl, rfl, rfl⟩
      · rw [hserves.dead hs] at hne
        simp at hne

/-- In a conversation that goes request by request one thing can happen at a time. -/
theorem Lockstep.step (h : Lockstep srv post msg reqs turns got n es c)
    (hserves : Serves srv post msg reqs turns s) (ha : Whole a)
    (hstep : ClientComm.step srv c a = some (o, c')) :
    Lockstep srv post msg reqs turns got (n + 1) (es ++ o) c' := by
  induction h with
  | ready => exact step_ready hserves hstep
  | asked => exact step_asked hserves ha hstep
  | answered hs =>
    obtain ⟨m, rfl, rfl, rfl⟩ := step_answered hserves hs ha hstep
    exact .next hs .ready
  | next hs _ ih =>
    rw [List.append_assoc]
    exact .next hs (ih (hserves.tail hs) hstep)

theorem lockstep_run {acts : List Act} {outs : List (List (Event H C))}
    (h : Run srv ⟨reqs ++ post, false, [], .live msg, [], got⟩ acts outs c)
    (hacts : ∀ a ∈ acts, Whole a) (hserves : Serves srv post msg reqs turns s) :
    Lockstep srv post msg reqs turns got acts.length outs.flatten c := by
  refine h.history (J := fun is os u => (∀ a ∈ is, Whole a) →
    Lockstep srv post msg reqs turns got is.length os.flatten u) ?_ ?_ hacts
  · exact fun _ => .ready
  · intro is os u a o v _ ih hstep hacts
    have hlock := ih fun a ha => hacts a (List.mem_append_left _ ha)
    have ha := hacts a (List.mem_append_right _ (List.mem_singleton_self a))
    rw [List.flatten_append, List.flatten_singleton, List.length_append, List.length_singleton]
    exact hlock.step hserves ha hstep

theorem Lockstep.le (h : Lockstep srv post msg reqs turns got n es c) : n ≤ 3 * reqs.length := by
  induction h with
  | ready => exact Nat.zero_le _
  | asked | answered =>
    rw [List.length_cons]
    omega
  | next _ _ ih =>
    rw [List.length_cons]
    omega

theorem Lockstep.answers (h : Lockstep srv post msg reqs turns got n es c) :
    c.got = got ++ (turns.take (n / 3)).map sent := by
  induction h with
  | ready | asked | answered => exact (List.append_nil _).symm
  | @next _ _ _ _ _ _ t _ n _ _ _ ih =>
    rw [ih, Nat.add_div_right n (by decide), List.take_succ_cons, List.map_cons,
      List.append_assoc, List.singleton_append]

theorem Lockstep.served (h : Lockstep srv post msg reqs turns got n es c)
    (hserves : Serves srv post msg reqs turns s) (hn : n = 3 * reqs.length) :
    es = turns.flatten ∧ c.todo = post ∧ c.waiting = false := by
  induction h with
  | @ready msg reqs turns got =>
    cases reqs with
    | nil =>
      obtain ⟨hrun, -, -, -⟩ := hserves
      cases hrun
      exact ⟨rfl, rfl, rfl⟩
    | cons r reqs =>
      rw [List.length_cons] at hn
      omega
  | asked | answered =>
    rw [List.length_cons] at hn
    omega
  | next hs _ ih =>
    rw [List.length_cons] at hn
    obtain ⟨rfl, htodo, hwait⟩ := ih (hserves.tail hs) (by omega)
    exact ⟨rfl, htodo, hwait⟩

theorem Lockstep.done (h : Lockstep srv post msg reqs turns got n es c) (hdone : c.Done) :
    n = 3 * reqs.length := by
  induction h with
  | @ready _ reqs _ _ =>
    rw [(List.append_eq_nil_iff.mp hdone.1).1]
    rfl
  | asked | answered => cases hdone.2
  | next _ _ ih =>
    rw [List.length_cons, ih hdone]
    omega

theorem Lockstep.events (h : Lockstep srv post msg reqs turns got n es c)
    (hserves : Serves srv post msg reqs turns s) : es <+: turns.flatten := by
  induction h with
  | ready | asked => exact List.nil_prefix
  | answered => exact List.prefix_append _ _
  | next hs _ ih => exact (List.prefix_append_right_inj _).mpr (ih (hserves.tail hs))

theorem Lockstep.done_live (h : Lockstep srv post msg reqs turns got n es c)
    (hserves : Serves srv post msg reqs turns s) (hdone : c.Done) : ∃ m, s = .live m := by
  induction h with
  | @ready msg reqs _ _ =>
    obtain ⟨rfl, -⟩ := List.append_eq_nil_iff.mp hdone.1
    obtain ⟨hrun, -, -, -⟩ := hserves
    cases hrun
    exact ⟨msg, rfl⟩
  | asked | answered => cases hdone.2
  | next hs _ ih => exact ih (hserves.tail hs) hdone

theorem Lockstep.lt (h : Lockstep srv post msg reqs turns got n es c)
    (hserves : Serves srv post msg reqs turns .dead) : n < 3 * reqs.length := by
  induction h with
  | @ready _ reqs _ _ =>
    cases reqs with
    | nil =>
      obtain ⟨hrun, -, -, -⟩ := hserves
      cases hrun
    | cons r reqs => exact Nat.mul_pos (by decide) (Nat.succ_pos _)
  | asked | answered =>
    rw [List.length_cons]
    omega
  | next hs _ ih =>
    rw [List.length_cons]
    have := ih (hserves.tail hs)
    omega

/-- As long as requests are left, something can happen, unless an answer has no bytes. -/
theorem Lockstep.enabled (h : Lockstep srv post msg reqs turns got n es c)
    (hserves : Serves srv post msg reqs turns s) (hn : n < 3 * reqs.length)
    (hreply : n % 3 = 2 → ∀ t, turns[n / 3]? = some t → sent t ≠ []) :
    ∃ a, Whole a ∧ (ClientComm.step srv c a).isSome := by
  induction h with
  | @ready msg reqs turns got =>
    cases reqs with
    | nil => cases hn
    | cons r reqs => exact ⟨.send, trivial, rfl⟩
  | @asked msg r reqs turns got =>
    obtain ⟨t, turns', s₁, rfl, hs⟩ := hserves.head
    refine ⟨.serve szBuf, Nat.le_refl szBuf, ?_⟩
    simp only [ClientComm.step, bytes_isEmpty, chunkOf_bytes r (Nat.le_refl szBuf)]
    rw [if_neg (by simp [szBuf]), show Recv.data r.chunk = r.recv from rfl, hs]
    rfl
  | @answered msg r reqs turns got t s₁ hs =>
    refine ⟨.receive szReply, Nat.le_refl szReply, ?_⟩
    have hne := List.isEmpty_eq_false_iff.mpr (hreply rfl t rfl)
    simp only [ClientComm.step, hne]
    rfl
  | @next _ _ _ _ turns _ t _ n _ hs _ ih =>
    rw [List.length_cons] at hn
    refine ih (hserves.tail hs) (by omega) fun hmod u hu => hreply (by omega) u ?_
    rw [Nat.add_div_right n (by decide), List.getElem?_cons_succ]
    exact hu

theorem Lockstep.dead_iff (h : Lockstep srv post msg reqs turns got n es c)
    (hserves : Serves srv post msg reqs turns .dead) :
    c.session = .dead ↔ n + 1 = 3 * reqs.length := by
  induction h with
  | ready =>
    refine iff_of_false (by rintro ⟨⟩) ?_
    omega
  | asked =>
    rw [List.length_cons]
    refine iff_of_false (by rintro ⟨⟩) ?_
    omega
  | @answered msg r reqs turns got t s₁ hs =>
    obtain ⟨turns', heq, hrun⟩ := (Run.cons_iff hs).mp hserves.run
    cases reqs with
    | nil =>
      cases hrun
      exact iff_of_true rfl rfl
    | cons r' reqs =>
      rw [List.length_cons, List.length_cons]
      refine iff_of_false ?_ (by omega)
      rintro rfl
      cases hrun with
      | cons hs' _ => cases hs'
  | next hs _ ih =>
    rw [List.length_cons, ih (hserves.tail hs)]
    omega

theorem Lockstep.stuck (h : Lockstep srv post msg reqs turns got n es c)
    (hserves : Serves srv post msg reqs turns s) (hdead : c.session = .dead) :
    c.waiting = true ∧ c.down = [] := by
  induction h with
  | ready | asked => cases hdead
  | @answered _ _ _ _ _ _ s₁ hs =>
    obtain rfl : s₁ = .dead := hdead
    exact ⟨rfl, hserves.dead hs⟩
  | next hs _ ih => exact ih (hserves.tail hs) hdead

theorem serves_live (h : SockComm.Run srv SockComm.start (reqs.map Request.recv) turns (.live msg))
    (hshort : ∀ t ∈ turns, (sent t).length ≤ szReply) :
    Serves srv [] (zeros szBuf) reqs turns (.live msg) :=
  ⟨h, hshort, fun _ => rfl, by rintro ⟨⟩⟩

theorem start_eq (reqs : List Request) :
    start reqs = ⟨reqs ++ [], false, [], .live (zeros szBuf), [], []⟩ := by
  rw [List.append_nil]
  rfl

theorem received_short {acts : List Act} {outs : List (List (Event H C))}
    (h : Run srv (start reqs) acts outs c) : ∀ b ∈ c.got, b.length ≤ szReply := by
  refine h.invariant (fun c => ∀ b ∈ c.got, b.length ≤ szReply) (fun _ => True) ?_
    (fun _ _ => trivial) (by rintro _ ⟨⟩)
  intro c a o c' hstep _ hc
  cases a with
  | send =>
    simp only [step] at hstep
    split at hstep
    · split at hstep
      · cases hstep
      · cases hstep
        exact hc
    · cases hstep
  | serve arrived =>
    simp only [step] at hstep
    split at hstep
    · cases hstep
    · obtain ⟨t, -, heq⟩ := Option.map_eq_some_iff.mp hstep
      cases heq
      exact hc
  | receive arrived =>
    simp only [step] at hstep
    split at hstep
    · cases hstep
    · cases hstep
      intro b hb
      obtain hb | hb := List.mem_append.mp hb
      · exact hc b hb
      · rw [List.mem_singleton.mp hb, List.length_take]
        omega

variable {acts : List Act} {outs : List (List (Event H C))}

/-- A client that is through has got exactly the answers to its requests when and only when none
is longer than its buffer: the rest of a longer one is taken for the next answer. -/
theorem got_iff (h : Run srv (start reqs) acts outs c) (hacts : ∀ a ∈ acts, Whole a)
    (hdone : c.Done)
    (hserve : SockComm.Run srv SockComm.start (reqs.map Request.recv) turns (.live msg)) :
    c.got = turns.map sent ↔ ∀ t ∈ turns, (sent t).length ≤ szReply := by
  constructor
  · intro hgot t ht
    apply received_short h
    rw [hgot]
    exact List.mem_map_of_mem ht
  · intro hshort
    have hserves := serves_live hserve hshort
    rw [start_eq] at h
    have hlock := lockstep_run h hacts hserves
    have hturns : turns.length = reqs.length := by
      rw [← hserve.length_eq, List.length_map]
    have hn := hlock.done hdone
    rw [hlock.answers, List.nil_append, List.take_of_length_le (by omega)]

/-- The conversation is a serving of the requests one by one: it cannot stop ahead of its end,
which comes after three acts for each request, with the answers given to their own requests. -/
structure InStep (srv : Server H C) (reqs : List Request) (turns : List (List (Event H C)))
    (acts : List Act) (outs : List (List (Event H C))) (c : Conversation) : Prop where
  length_le : acts.length ≤ 3 * reqs.length
  events : outs.flatten <+: turns.flatten
  got : c.got = (turns.take (acts.length / 3)).map sent
  more : acts.length < 3 * reqs.length → ∃ a, Whole a ∧ (step srv c a).isSome
  all : acts.length = 3 * reqs.length → c.Done ∧ outs.flatten = turns.flatten

theorem inStep (h : Run srv (start reqs) acts outs c) (hacts : ∀ a ∈ acts, Whole a)
    (hserve : SockComm.Run srv SockComm.start (reqs.map Request.recv) turns (.live msg))
    (hreply : ∀ t ∈ turns, sent t ≠ []) (hshort : ∀ t ∈ turns, (sent t).length ≤ szReply) :
    InStep srv reqs turns acts outs c := by
  have hserves := serves_live hserve hshort
  rw [start_eq] at h
  have hlock := lockstep_run h hacts hserves
  have hmore (hlen : acts.length < 3 * reqs.length) : ∃ a, Whole a ∧ (step srv c a).isSome :=
    hlock.enabled hserves hlen fun _ t ht => hreply t (List.mem_of_getElem? ht)
  refine ⟨hlock.le, hlock.events hserves, hlock.answers, hmore, ?_⟩
  intro hlen
  obtain ⟨hout, htodo, hwait⟩ := hlock.served hserves hlen
  exact ⟨⟨htodo, hwait⟩, hout⟩

theorem complete_run {k : Nat} (hmore : ∀ acts outs c, Run srv (start reqs) acts outs c →
    (∀ a ∈ acts, Whole a) → acts.length < k → ∃ a, Whole a ∧ (step srv c a).isSome) :
    ∃ acts outs c, Run srv (start reqs) acts outs c ∧ (∀ a ∈ acts, Whole a) ∧ acts.length = k := by
  induction k with
  | zero => exact ⟨[], [], _, .nil _, by rintro _ ⟨⟩, rfl⟩
  | succ k ih =>
    obtain ⟨acts, outs, c, hrun, hacts, rfl⟩ :=
      ih fun acts outs c hrun hacts hlt => hmore acts outs c hrun hacts (by omega)
    obtain ⟨a, ha, hsome⟩ := hmore acts outs c hrun hacts (Nat.lt_succ_self _)
    obtain ⟨⟨o, c'⟩, hstep⟩ := Option.isSome_iff_exists.mp hsome
    refine ⟨acts ++ [a], _, c', hrun.concat hstep, ?_, by simp⟩
    intro b hb
    obtain hb | hb := List.mem_append.mp hb
    · exact hacts b hb
    · rwa [List.mem_singleton.mp hb]

/-- On every schedule the client and the session go through the requests in step, exactly when
no answer is longer than the client's buffer. -/
theorem conversation_iff
    (hserve : SockComm.Run srv SockComm.start (reqs.map Request.recv) turns (.live msg))
    (hreply : ∀ t ∈ turns, sent t ≠ []) :
    (∀ acts outs c, Run srv (start reqs) acts outs c → (∀ a ∈ acts, Whole a) →
      InStep srv reqs turns acts outs c) ↔ ∀ t ∈ turns, (sent t).length ≤ szReply := by
  constructor
  · intro hall
    have hcomplete : ∃ acts outs c, Run srv (start reqs) acts outs c ∧ (∀ a ∈ acts, Whole a) ∧
        acts.length = 3 * reqs.length :=
      complete_run fun acts outs c hrun hacts => (hall acts outs c hrun hacts).more
    obtain ⟨acts, outs, c, hrun, hacts, hlen⟩ := hcomplete
    have hin := hall acts outs c hrun hacts
    have hturns : turns.length = reqs.length := by rw [← hserve.length_eq, List.length_map]
    intro t ht
    apply received_short hrun
    rw [hin.got, hlen, Nat.mul_div_cancel_left _ (by decide), ← hturns, List.take_length]
    exact List.mem_map_of_mem ht
  · exact fun hshort acts outs c hrun hacts => inStep hrun hacts hserve hreply hshort

theorem two_mem : (-2147483648 : Int) ≤ 2 ∧ (2 : Int) < 2147483648 := by decide

/-- Requests that find no protocol: each is answered with as many bytes again. -/
def echoRequests : List Request :=
  [bareRequest 0 0 zero_mem zero_mem, bareRequest 2 0 two_mem zero_mem,
    bareRequest 0 2 zero_mem two_mem]

theorem echo_inStep : ∃ t₁ t₂ t₃ : List (Event Unit Unit), ∀ acts outs c,
    Run Listener.noServer (start echoRequests) acts outs c → (∀ a ∈ acts, Whole a) →
      InStep Listener.noServer echoRequests [t₁, t₂, t₃] acts outs c := by
  have hserve : SockComm.Run Listener.noServer SockComm.start (echoRequests.map Request.recv)
      [_, _, _] (.live _) := .cons rfl (.cons rfl (.cons rfl (.nil _)))
  exact ⟨_, _, _, (conversation_iff hserve (by decide +kernel)).mpr (by decide +kernel)⟩

theorem serves_dead {pre : List Request} {t : List (Event H C)}
    (hserve : SockComm.Run srv SockComm.start (pre.map Request.recv) turns (.live msg))
    (hshort : ∀ t ∈ turns, (sent t).length ≤ szReply)
    (hdies : SockComm.step srv (.live msg) r.recv = some (t, .dead)) (hsilent : sent t = []) :
    Serves srv post (zeros szBuf) (pre ++ [r]) (turns ++ [t]) .dead := by
  refine ⟨?_, ?_, by rintro ⟨m, ⟨⟩⟩, ?_⟩
  · rw [List.map_append]
    exact hserve.concat hdies
  · intro u hu
    obtain hu | hu := List.mem_append.mp hu
    · exact hshort u hu
    · rw [List.mem_singleton.mp hu, hsilent]
      exact Nat.zero_le _
  · intro _ u hu
    rw [List.getLast?_concat] at hu
    cases hu
    exact hsilent

theorem blocked_dead (hdead : c.session = .dead) (hwait : c.waiting = true) (hdown : c.down = [])
    (a : Act) : step srv c a = none := by
  cases a with
  | send =>
    simp only [step, hwait]
    split <;> rfl
  | serve arrived =>
    simp only [step, hdead, SockComm.step]
    split <;> rfl
  | receive arrived => simp [step, hdown]

/-- The conversation is a serving of the requests one by one up to the one that ends the session.
The client comes that far, and is then blocked in its `recv`. -/
structure Hangs (srv : Server H C) (pre : List Request) (turns : List (List (Event H C)))
    (acts : List Act) (c : Conversation) : Prop where
  not_done : ¬ c.Done
  length_le : acts.length ≤ 3 * pre.length + 2
  got : c.got = (turns.take (acts.length / 3)).map sent
  more : (∀ t ∈ turns, sent t ≠ []) → acts.length < 3 * pre.length + 2 →
    ∃ a, Whole a ∧ (step srv c a).isSome
  ended : c.session = .dead ↔ acts.length = 3 * pre.length + 2
  blocked : c.session = .dead → ∀ a, step srv c a = none

theorem outside_mem : (-2147483648 : Int) ≤ 300 ∧ (300 : Int) < 2147483648 := by decide

def badRequest : Request := bareRequest 300 0 outside_mem zero_mem

end LibSwitch.ClientComm
