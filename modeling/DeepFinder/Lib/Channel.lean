import DeepFinder.Lib.Run
import Mathlib.Data.List.Perm.Basic

/-!
# Bounded channels

Producers send their items through a queue of bounded length to one consumer.  A producer waits
while the queue is full.  The consumer may give up; what is in the queue is then lost, the next
send fails, and the producers stop.  When every producer is done and the queue is empty, the
channel is closed, and the consumer finishes what it was at, which may fail as well.

Whatever the schedule, the consumer is given each item once (`Sound.exec`), the channel never locks
up (`exists_step`), and every schedule ends (`length_add_weight_le`).
-/

namespace Channel

/-- A consumer: the next state after an item, if it can take it, and whether it may give up with
this item, if any, at the front of the queue; and the same for what it does when the channel is
closed.  A consumer that cannot go on may give up, so that it never blocks the others. -/
structure Consumer (α γ : Type) where
  accept : γ → α → Option γ
  mayFail : γ → Option α → Bool
  fails : ∀ {c a}, accept c a = none → mayFail c (some a) = true
  finish : γ → Option γ
  mayFailLast : γ → Bool
  failsLast : ∀ {c}, finish c = none → mayFailLast c = true

/-- How far the consumer is. -/
inductive Receiver (γ : Type) where
  | running (c : γ)
  /-- nothing will come any more, and the consumer has finished -/
  | closed (c : γ)
  | failed (c : γ)
  deriving DecidableEq

/-- The consumer has got so far from a state after an item: it is still there, or has finished. -/
def Receiver.From {α γ : Type} (K : Consumer α γ) (c : γ) : Receiver γ → Prop
  | .running d | .failed d => d = c
  | .closed d => K.finish c = some d

/-- What each producer has still to send, the queue, and the consumer; `quit` is set when a send
has failed. -/
structure State (α γ : Type) where
  producers : List (List α)
  queue : List α := []
  receiver : Receiver γ
  quit : Bool := false
  deriving DecidableEq

/-- What happens next. -/
inductive Move where
  | send (i : ℕ)
  /-- a send fails -/
  | reject (i : ℕ)
  /-- a producer sees that a send has failed -/
  | leave (i : ℕ)
  | receive
  | giveUp
  | close
  /-- the consumer gives up on what it does at the end -/
  | abandon
  deriving DecidableEq

variable {α γ : Type} (K : Consumer α γ) (cap : ℕ)

/-- One step. -/
def step (s : State α γ) : Move → Option (State α γ)
  | .send i =>
      match s.producers[i]?, s.receiver with
      | some (a :: items), .running _ =>
          if s.queue.length < cap then
            some { s with producers := s.producers.set i items, queue := s.queue ++ [a] }
          else none
      | _, _ => none
  | .reject i =>
      match s.producers[i]?, s.receiver with
      | some (_ :: _), .failed _ =>
          some { s with producers := s.producers.set i [], quit := true }
      | _, _ => none
  | .leave i =>
      match s.producers[i]?, s.quit with
      | some (_ :: _), true => some { s with producers := s.producers.set i [] }
      | _, _ => none
  | .receive =>
      match s.queue, s.receiver with
      | a :: queue, .running c =>
          (K.accept c a).map fun c => { s with queue := queue, receiver := .running c }
      | _, _ => none
  | .giveUp =>
      match s.receiver with
      | .running c =>
          if K.mayFail c s.queue.head? then some { s with queue := [], receiver := .failed c }
          else none
      | _ => none
  | .close =>
      match s.queue, s.receiver with
      | [], .running c =>
          if ∀ items ∈ s.producers, items = [] then
            (K.finish c).map fun c => { s with receiver := .closed c }
          else none
      | _, _ => none
  | .abandon =>
      match s.queue, s.receiver with
      | [], .running c =>
          if (∀ items ∈ s.producers, items = []) ∧ K.mayFailLast c = true then
            some { s with receiver := .failed c }
          else none
      | _, _ => none

def State.Ended (s : State α γ) : Prop :=
  (∀ c, s.receiver ≠ .running c) ∧ ∀ items ∈ s.producers, items = []

variable {K cap}

/-! ## What a step does -/

/-- The moves of a channel. -/
inductive Moves (K : Consumer α γ) (cap : ℕ) (s : State α γ) : State α γ → Prop where
  | send (i : ℕ) (a : α) (items : List α) (c : γ) (hi : s.producers[i]? = some (a :: items))
      (hrun : s.receiver = .running c) (hroom : s.queue.length < cap) :
      Moves K cap s { s with producers := s.producers.set i items, queue := s.queue ++ [a] }
  | stop (i : ℕ) (a : α) (items : List α) (hi : s.producers[i]? = some (a :: items))
      (hfailed : s.quit = true ∨ ∃ c, s.receiver = .failed c) :
      Moves K cap s { s with producers := s.producers.set i [], quit := true }
  | receive (a : α) (queue : List α) (c c' : γ) (hqueue : s.queue = a :: queue)
      (hrun : s.receiver = .running c) (haccept : K.accept c a = some c') :
      Moves K cap s { s with queue := queue, receiver := .running c' }
  | giveUp (c : γ) (hrun : s.receiver = .running c) (hfail : K.mayFail c s.queue.head? = true) :
      Moves K cap s { s with queue := [], receiver := .failed c }
  | close (c c' : γ) (hqueue : s.queue = []) (hrun : s.receiver = .running c)
      (hdone : ∀ items ∈ s.producers, items = []) (hfinish : K.finish c = some c') :
      Moves K cap s { s with receiver := .closed c' }
  | abandon (c : γ) (hqueue : s.queue = []) (hrun : s.receiver = .running c)
      (hfail : K.mayFailLast c = true) : Moves K cap s { s with receiver := .failed c }

section Step

variable {s s' : State α γ} {m : Move}

lemma moves_of_step (h : step K cap s m = some s') : Moves K cap s s' := by
  cases m with
  | send i =>
      simp only [step] at h
      split at h
      · rename_i a items c hi hrun
        obtain ⟨hroom, rfl⟩ := Run.of_enabled h
        exact .send i a items c hi hrun hroom
      · cases h
  | reject i =>
      simp only [step] at h
      split at h
      · rename_i a items c hi hfailed
        obtain rfl := Option.some.inj h
        exact .stop i a items hi (Or.inr ⟨c, hfailed⟩)
      · cases h
  | leave i =>
      simp only [step] at h
      split at h
      · rename_i a items hi hquit
        obtain rfl := Option.some.inj h
        have hsame : { s with producers := s.producers.set i [] } =
            { s with producers := s.producers.set i [], quit := true } := by rw [hquit]
        exact hsame ▸ .stop i a items hi (Or.inl hquit)
      · cases h
  | receive =>
      simp only [step] at h
      split at h
      · rename_i a rest c hqueue hrun
        obtain ⟨c', haccept, rfl⟩ := Option.map_eq_some_iff.mp h
        exact .receive a rest c c' hqueue hrun haccept
      · cases h
  | giveUp =>
      simp only [step] at h
      split at h
      · rename_i c hrun
        obtain ⟨hfail, rfl⟩ := Run.of_enabled h
        exact .giveUp c hrun hfail
      · cases h
  | close =>
      simp only [step] at h
      split at h
      · rename_i c hqueue hrun
        obtain ⟨hdone, h⟩ := Option.ite_none_right_eq_some.mp h
        obtain ⟨c', hfinish, rfl⟩ := Option.map_eq_some_iff.mp h
        exact .close c c' hqueue hrun hdone hfinish
      · cases h
  | abandon =>
      simp only [step] at h
      split at h
      · rename_i c hqueue hrun
        obtain ⟨⟨-, hfail⟩, rfl⟩ := Run.of_enabled h
        exact .abandon c hqueue hrun hfail
      · cases h

end Step

/-! ## Every item once -/

/-- A list replaced among lists. -/
lemma perm_flatten_set {l : List (List α)} {i : ℕ} {x y : List α} (h : l[i]? = some x) :
    (x ++ (l.set i y).flatten).Perm (y ++ l.flatten) := by
  induction l generalizing i with
  | nil => cases h
  | cons z l ih =>
      cases i with
      | zero =>
          obtain rfl := Option.some.inj h
          rw [List.set_cons_zero, List.flatten_cons, List.flatten_cons, ← List.append_assoc,
            ← List.append_assoc]
          exact List.perm_append_comm.append_right _
      | succ i =>
          have hperm := ih (i := i) (by simpa using h)
          rw [List.set_cons_succ, List.flatten_cons, List.flatten_cons]
          have hswap : ∀ (a b rest : List α), (a ++ (b ++ rest)).Perm (b ++ (a ++ rest)) := by
            intro a b rest
            simpa using (@List.perm_append_comm α a b).append_right rest
          exact ((hswap x z _).trans (hperm.append_left z)).trans (hswap z y _)

/-- The items that the consumer has taken, those in the queue, those that it has lost and those
still to be sent are the items of the producers. -/
structure Sound (K : Consumer α γ) (cap : ℕ) (c₀ : γ) (items : List α) (s : State α γ) : Prop where
  length_le : s.queue.length ≤ cap
  account : ∃ taken lost c, taken.foldlM K.accept c₀ = some c ∧ s.receiver.From K c ∧
    (taken ++ (s.queue ++ (lost ++ s.producers.flatten))).Perm items ∧
    (lost ≠ [] → ∃ c, s.receiver = .failed c)
  closed : ∀ c, s.receiver = .closed c → s.queue = [] ∧ ∀ items ∈ s.producers, items = []
  failed : ∀ c, s.receiver = .failed c → s.queue = []
  quit : s.quit = true → ∃ c, s.receiver = .failed c

section Sound

variable {c₀ : γ} {items : List α} {s s' : State α γ}

lemma not_failed {r : Receiver γ} (h : ∀ c, r ≠ .failed c) : ¬ ∃ c, r = .failed c := by
  rintro ⟨c, hc⟩
  exact h c hc

lemma sound_start (xs : List (List α)) :
    Sound K cap c₀ xs.flatten { producers := xs, receiver := .running c₀ } where
  length_le := Nat.zero_le _
  account := ⟨[], [], c₀, rfl, rfl, by simp, fun h => absurd rfl h⟩
  closed c h := by cases h
  failed c h := by cases h
  quit h := by cases h

lemma Sound.moves (h : Sound K cap c₀ items s) (hmove : Moves K cap s s') :
    Sound K cap c₀ items s' := by
  obtain ⟨hlen, ⟨taken, lost, c₁, hfold, hfrom, hperm, hlost⟩, hclosed, hfailed, hquit⟩ := h
  -- nothing is lost, and no producer has stopped, while the consumer is running
  have hrunning : ∀ {c}, s.receiver = .running c → lost = [] ∧ s.quit = false := by
    intro c hrun
    have hnot : ¬ ∃ d, s.receiver = .failed d := not_failed fun d => by simp [hrun]
    exact ⟨not_not.mp fun hne => hnot (hlost hne), Bool.eq_false_iff.mpr fun hq => hnot (hquit hq)⟩
  cases hmove with
  | send i a rest c hi hrun hroom =>
      obtain ⟨rfl, hnone⟩ := hrunning hrun
      have hset := perm_flatten_set (y := rest) hi
      have hcons : (a :: (s.producers.set i rest).flatten).Perm s.producers.flatten := by
        refine List.perm_append_left_iff rest |>.mp ?_
        refine List.Perm.trans ?_ hset
        simp
      refine ⟨by simp; omega, ⟨taken, [], c₁, hfold, hfrom, ?_, fun h => absurd rfl h⟩, ?_, ?_,
        by simp [hnone]⟩
      · refine List.Perm.trans ?_ hperm
        simpa using ((hcons.append_left s.queue).append_left taken)
      · simp [hrun]
      · simp [hrun]
  | stop i a rest hi hstop =>
      obtain ⟨c, hc⟩ : ∃ c, s.receiver = .failed c := hstop.elim hquit id
      have hset := perm_flatten_set (y := []) hi
      refine ⟨hlen, ⟨taken, lost ++ (a :: rest), c₁, hfold, hfrom, ?_, fun _ => ⟨c, hc⟩⟩,
        by simp [hc], hfailed, fun _ => ⟨c, hc⟩⟩
      refine List.Perm.trans ?_ hperm
      refine List.Perm.append_left taken (List.Perm.append_left s.queue ?_)
      rw [List.append_assoc]
      exact hset.append_left lost
  | receive a queue c c' hqueue hrun haccept =>
      obtain ⟨rfl, hnone⟩ := hrunning hrun
      rw [hqueue] at hlen hperm
      rw [hrun] at hfrom
      obtain rfl : c = c₁ := hfrom
      refine ⟨Nat.le_of_succ_le hlen, ⟨taken ++ [a], [], c', ?_, rfl, by simpa using hperm,
        fun h => absurd rfl h⟩, by simp, by simp, by simp [hnone]⟩
      rw [List.foldlM_append, hfold]
      simp [haccept]
  | giveUp c hrun hfail =>
      rw [hrun] at hfrom
      exact ⟨Nat.zero_le _, ⟨taken, s.queue ++ lost, c₁, hfold, hfrom, by simpa using hperm,
        fun _ => ⟨c, rfl⟩⟩, by simp, fun _ _ => rfl, fun _ => ⟨c, rfl⟩⟩
  | close c c' hqueue hrun hdone hfinish =>
      obtain ⟨rfl, hnone⟩ := hrunning hrun
      rw [hrun] at hfrom
      obtain rfl : c = c₁ := hfrom
      exact ⟨hlen, ⟨taken, [], c, hfold, hfinish, hperm, fun h => absurd rfl h⟩,
        fun _ _ => ⟨hqueue, hdone⟩, by simp, by simp [hnone]⟩
  | abandon c hqueue hrun hfail =>
      obtain ⟨rfl, hnone⟩ := hrunning hrun
      rw [hrun] at hfrom
      exact ⟨hlen, ⟨taken, [], c₁, hfold, hfrom, hperm, fun h => absurd rfl h⟩, by simp,
        fun _ _ => hqueue, by simp [hnone]⟩

/-- After every schedule. -/
theorem Sound.exec (h : Sound K cap c₀ items s) {moves : List Move}
    (hrun : Run.exec (step K cap) s moves = some s') : Sound K cap c₀ items s' :=
  Run.exec_invariant (step K cap) (fun _ _ _ hs hstep => hs.moves (moves_of_step hstep)) h hrun

/-- A consumer that sees the channel closed has taken every item, in some order, and finished. -/
lemma Sound.of_closed (h : Sound K cap c₀ items s) {c : γ} (hc : s.receiver = .closed c) :
    ∃ (taken : List α) (c₁ : γ), taken.Perm items ∧ taken.foldlM K.accept c₀ = some c₁ ∧
      K.finish c₁ = some c := by
  obtain ⟨taken, lost, c₁, hfold, hfrom, hperm, hlost⟩ := h.account
  obtain ⟨hqueue, hdone⟩ := h.closed c hc
  have hnone : lost = [] := not_not.mp fun hne => not_failed (fun d => by simp [hc]) (hlost hne)
  have hempty : s.producers.flatten = [] := by simpa using hdone
  rw [hc] at hfrom
  exact ⟨taken, c₁, by simpa [hqueue, hnone, hempty] using hperm, hfold, hfrom⟩

lemma Sound.of_failed (h : Sound K cap c₀ items s) {c : γ} (hc : s.receiver = .failed c) :
    ∃ taken lost : List α, (taken ++ lost).Perm items ∧ taken.foldlM K.accept c₀ = some c := by
  obtain ⟨taken, lost, c₁, hfold, hfrom, hperm, -⟩ := h.account
  rw [hc] at hfrom
  obtain rfl : c = c₁ := hfrom
  exact ⟨taken, _, hperm, hfold⟩

/-! ## Every schedule ends -/

/-- Until the channel has ended, a step is enabled: nothing waits for ever. -/
theorem exists_step (h : Sound K cap c₀ items s) (hcap : 0 < cap) (hend : ¬ s.Ended) :
    ∃ m s', step K cap s m = some s' := by
  have hsome : (¬ ∀ items ∈ s.producers, items = []) →
      ∃ (i : ℕ) (a : α) (rest : List α), s.producers[i]? = some (a :: rest) := by
    intro hne
    push Not at hne
    obtain ⟨list, hmem, hnil⟩ := hne
    obtain ⟨i, hi⟩ := List.mem_iff_getElem?.mp hmem
    obtain ⟨a, rest, rfl⟩ := List.exists_cons_of_ne_nil hnil
    exact ⟨i, a, rest, hi⟩
  cases hrec : s.receiver with
  | running c =>
      cases hqueue : s.queue with
      | nil =>
          by_cases hdone : ∀ items ∈ s.producers, items = []
          · cases hfinish : K.finish c with
            | some c' =>
                exact ⟨.close, _, by simp only [step, hqueue, hrec, hfinish]; exact if_pos hdone⟩
            | none =>
                have hfail := K.failsLast hfinish
                exact ⟨.abandon, _, by
                  simp only [step, hqueue, hrec]; exact if_pos ⟨hdone, hfail⟩⟩
          · obtain ⟨i, a, rest, hi⟩ := hsome hdone
            exact ⟨.send i, _, by simp only [step, hi, hrec, hqueue]; exact if_pos hcap⟩
      | cons a queue =>
          cases haccept : K.accept c a with
          | some c' => exact ⟨.receive, _, by simp only [step, hqueue, hrec, haccept]; rfl⟩
          | none =>
              have hfail := K.fails haccept
              exact ⟨.giveUp, _, by simp only [step, hqueue, hrec]; exact if_pos hfail⟩
  | closed c =>
      refine absurd ⟨fun d hd => ?_, (h.closed c hrec).2⟩ hend
      rw [hrec] at hd
      cases hd
  | failed c =>
      by_cases hdone : ∀ items ∈ s.producers, items = []
      · refine absurd ⟨fun d hd => ?_, hdone⟩ hend
        rw [hrec] at hd
        cases hd
      · obtain ⟨i, a, rest, hi⟩ := hsome hdone
        exact ⟨.reject i, _, by simp only [step, hi, hrec]; rfl⟩

def State.weight (s : State α γ) : ℕ :=
  2 * s.producers.flatten.length + s.queue.length +
    match s.receiver with
    | .running _ => 1
    | _ => 0

lemma weight_lt (h : Moves K cap s s') : s'.weight < s.weight := by
  have hlength : ∀ {i : ℕ} {x y : List α}, s.producers[i]? = some x →
      x.length + (s.producers.set i y).flatten.length = y.length + s.producers.flatten.length := by
    intro i x y hi
    simpa using (perm_flatten_set (y := y) hi).length_eq
  unfold State.weight
  cases h with
  | send i a rest c hi hrun hroom =>
      have hlen := hlength (y := rest) hi
      simp at hlen ⊢
      omega
  | stop i a rest hi hstop =>
      have hlen := hlength (y := []) hi
      simp at hlen ⊢
      omega
  | receive a queue c c' hqueue hrun haccept => simp [hqueue, hrun]
  | giveUp c hrun hfail =>
      simp only [hrun, List.length_nil]
      omega
  | close c c' hqueue hrun hdone hfinish => simp [hrun]
  | abandon c hqueue hrun hfail => simp [hrun]

/-- Every schedule takes a bounded number of steps. -/
theorem length_add_weight_le {moves : List Move} (hrun : Run.exec (step K cap) s moves = some s') :
    moves.length + s'.weight ≤ s.weight := by
  induction moves generalizing s with
  | nil =>
      obtain rfl := Option.some.inj hrun
      simp
  | cons m moves ih =>
      obtain ⟨s₁, hstep, hrest⟩ := Option.bind_eq_some_iff.mp hrun
      have hless := weight_lt (moves_of_step hstep)
      have hmore := ih hrest
      rw [List.length_cons]
      omega

end Sound

end Channel
