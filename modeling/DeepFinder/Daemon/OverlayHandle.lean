import DeepFinder.Content.Overlay
import DeepFinder.Index.OverlayStore

/-!
# The overlay over its WAL

`OverlayHandle` keeps an overlay in memory and the WAL it can be rebuilt from.  A batch is appended
to the WAL record by record, synced, and then published at once; a daemon may die anywhere in
between.

The overlay is published whatever becomes of the appends, so memory can be ahead of the WAL and
never behind it: `restart_serves_applied`.

`KeepsWal` is what is asked of the steps: the log can be read at a start, no append begins behind an
incomplete frame (`Index/OverlayStore.lean` says why), and a clear truncates the log.  The last part
of the theorem is about runs in which the store opened at every start and every append succeeded
(`Durable`); without it records that were served can be missing after a restart, and what is there
is a sublist.
-/

namespace DeepFinder

open ByteString

variable (B : Bincode)

/-! ## The handle's functions -/

/-- The WAL, and the overlay of the daemon that is up, if one is. -/
structure HandleState where
  wal : StoreState
  data : Option Overlay
  /-- the records that the overlay was built from -/
  served : List WalRecord

def HandleState.initial : HandleState := ⟨.initial, none, []⟩

/-- The appends of one batch, each with the byte at which its `write_all` fails, if it does. -/
abbrev BatchWrites := List (WalRecord × Option ℕ)

def BatchWrites.recs (writes : BatchWrites) : List WalRecord := writes.map Prod.fst

/-- One `store.append(r)` of `record_and_apply`. -/
def appendOp : WalRecord × Option ℕ → StoreOp
  | (r, none) => .append r
  | (r, some k) => .appendFails r k

/-- The end of a daemon: inside an append, or outside of any. -/
def dieOp : Option (WalRecord × ℕ) → StoreOp
  | some (r, k) => .crash r k
  | none => .exit

inductive HandleOp where
  /-- `OverlayHandle::open`, and whether the WAL can be read and `OverlayStore::open` succeeds -/
  | openHandle (reads opens : Bool)
  | recordAndApply (writes : BatchWrites)
  /-- the daemon dies in `record_and_apply`, after these appends and inside one more, if any -/
  | crash (writes : BatchWrites) (torn : Option (WalRecord × ℕ))
  /-- `clear`, and whether `truncate` succeeds in it -/
  | clear (truncates : Bool)

namespace HandleState

/-- What a list of store events makes of the WAL, if `store` is `Some`. -/
def onStore (s : HandleState) (ops : List StoreOp) : Option StoreState :=
  if s.wal.isOpen then Run.exec (storeStep B) s.wal ops else some s.wal

/-- `OverlayHandle::open`. -/
def openHandle (s : HandleState) (reads opens : Bool) : Option HandleState :=
  let found := if reads then replay B s.wal.file else .error (.err (.io "read"))
  match s.data, Res.unwrapOr [] found with
  | none, .ok recs =>
      let data := ({} : Overlay).applyRecords recs
      if opens then
        (storeStep B s.wal .openStore).map fun wal => ⟨wal, some data, recs⟩
      else
        -- the overlay is in memory only
        some ⟨{ s.wal with isOpen := false }, some data, recs⟩
  | _, _ => none

/-- `record_and_apply`. -/
def recordAndApply (s : HandleState) (writes : BatchWrites) : Option HandleState :=
  s.data.bind fun o => (s.onStore B (writes.map appendOp)).map fun wal =>
    ⟨wal, some (o.applyRecords writes.recs), s.served ++ writes.recs⟩

/-- `record_and_apply` up to some append, the last thing the daemon does. -/
def crash (s : HandleState) (writes : BatchWrites) (torn : Option (WalRecord × ℕ)) :
    Option HandleState :=
  s.data.bind fun _ => (s.onStore B (writes.map appendOp ++ [dieOp torn])).map fun wal =>
    ⟨wal, none, []⟩

/-- `OverlayHandle::clear`. -/
def clear (s : HandleState) (truncates : Bool) : Option HandleState :=
  s.data.bind fun _ => (s.onStore B (if truncates then [.truncate] else [])).map fun wal =>
    ⟨wal, some {}, []⟩

end HandleState

/-- One step in the life of the overlay and its WAL. -/
def handleStep (s : HandleState) : HandleOp → Option HandleState
  | .openHandle reads opens => s.openHandle B reads opens
  | .recordAndApply writes => s.recordAndApply B writes
  | .crash writes torn => s.crash B writes torn
  | .clear truncates => s.clear B truncates

/-! ## What the WAL is spared -/

/-- The WAL is read where it is there, nothing is written behind an incomplete frame, and the WAL
is truncated where the overlay is dropped. -/
def KeepsWal (s : HandleState) : HandleOp → Prop
  | .openHandle reads _ => reads = true
  | .recordAndApply writes =>
      s.wal.isOpen = true →
        Run.Guarded (storeStep B) (WritesOnFrameBoundary B) s.wal (writes.map appendOp)
  | .crash writes torn =>
      s.wal.isOpen = true →
        Run.Guarded (storeStep B) (WritesOnFrameBoundary B) s.wal
          (writes.map appendOp ++ [dieOp torn])
  | .clear truncates => s.wal.isOpen = true ∧ truncates = true

instance (s : HandleState) (op : HandleOp) : Decidable (KeepsWal B s op) := by
  cases op <;> (unfold KeepsWal; infer_instance)

def BatchWrites.Durable (writes : BatchWrites) : Prop :=
  ∀ w ∈ writes, w.2 = none ∧ ∃ frame, encodeRecord B w.1 = .ok frame

/-- The store opens and its appends succeed.  A daemon may still die in a batch, behind the appends
that it has made. -/
def HandleOp.Durable : HandleOp → Prop
  | .openHandle _ opens => opens = true
  | .recordAndApply writes | .crash writes _ => writes.Durable B
  | .clear _ => True

/-! ## The invariant -/

/-- The WAL can be replayed, and the overlay is that of the served records, all those of the WAL
among them. -/
structure HandleInv (s : HandleState) : Prop where
  store : StoreInv B s.wal
  data : ∀ o, s.data = some o → o = ({} : Overlay).applyRecords s.served
  acked : s.data.isSome = true → s.wal.acked.Sublist s.served

def HandleState.InStep (s : HandleState) : Prop :=
  s.data.isSome = true → s.wal.isOpen = true ∧ s.wal.acked = s.served

variable {B}

lemma Overlay.applyRecords_append (o : Overlay) (as bs : List WalRecord) :
    o.applyRecords (as ++ bs) = (o.applyRecords as).applyRecords bs := by
  simp [Overlay.applyRecords, List.foldl_append]

section Appends

variable {s t : StoreState} {writes : BatchWrites}

/-- One append, complete or not. -/
lemma storeStep_appendOp {w : WalRecord × Option ℕ} (h : storeStep B s (appendOp w) = some t) :
    t.isOpen = s.isOpen ∧ (t.acked = s.acked ∨ t.acked = s.acked ++ [w.1]) := by
  obtain ⟨r, stop⟩ := w
  cases stop with
  | none =>
      obtain ⟨file, -, ⟨frame, -, rfl⟩ | rfl⟩ := storeStep_append h
      · exact ⟨rfl, Or.inr rfl⟩
      · exact ⟨rfl, Or.inl rfl⟩
  | some k =>
      obtain ⟨file, frame, -, -, -, rfl⟩ := StoreState.tear_eq_some h
      exact ⟨rfl, Or.inl rfl⟩

lemma storeStep_append_durable {r : WalRecord} (h : storeStep B s (.append r) = some t)
    (henc : ∃ frame, encodeRecord B r = .ok frame) : t.acked = s.acked ++ [r] := by
  obtain ⟨frame, henc⟩ := henc
  unfold storeStep at h
  dsimp only at h
  split at h
  · simp only [OverlayStore.append, henc, Option.some.injEq] at h
    rw [← h]
  · cases h

/-- What is acknowledged of a batch. -/
lemma exec_appendOps (h : Run.exec (storeStep B) s (writes.map appendOp) = some t) :
    t.isOpen = s.isOpen ∧ ∃ done, t.acked = s.acked ++ done ∧ done.Sublist writes.recs := by
  induction writes generalizing s with
  | nil =>
      obtain rfl := Option.some.inj h
      exact ⟨rfl, [], by simp, List.nil_sublist _⟩
  | cons w writes ih =>
      obtain ⟨u, hu, hrest⟩ := Option.bind_eq_some_iff.mp h
      obtain ⟨hopen, hacked⟩ := storeStep_appendOp hu
      obtain ⟨hopen', done, hdone, hsub⟩ := ih hrest
      refine ⟨hopen'.trans hopen, ?_⟩
      rcases hacked with hacked | hacked
      · exact ⟨done, by rw [hdone, hacked], hsub.cons w.1⟩
      · exact ⟨w.1 :: done, by simp [hdone, hacked], hsub.cons_cons w.1⟩

lemma exec_appendOps_durable (hdur : writes.Durable B)
    (h : Run.exec (storeStep B) s (writes.map appendOp) = some t) :
    t.acked = s.acked ++ writes.recs := by
  induction writes generalizing s with
  | nil =>
      obtain rfl := Option.some.inj h
      simp [BatchWrites.recs]
  | cons w writes ih =>
      obtain ⟨u, hu, hrest⟩ := Option.bind_eq_some_iff.mp h
      obtain ⟨hnone, henc⟩ := hdur w (List.mem_cons_self ..)
      obtain ⟨r, stop⟩ := w
      obtain rfl : stop = none := hnone
      have hacked := storeStep_append_durable hu henc
      rw [ih (fun w hw => hdur w (List.mem_cons_of_mem _ hw)) hrest, hacked]
      simp [BatchWrites.recs]

lemma storeStep_dieOp {torn : Option (WalRecord × ℕ)} (h : storeStep B s (dieOp torn) = some t) :
    t.acked = s.acked := by
  cases torn with
  | none =>
      obtain rfl := Option.some.inj h
      rfl
  | some w =>
      obtain ⟨u, hu, rfl⟩ := Option.map_eq_some_iff.mp h
      obtain ⟨file, frame, -, -, -, rfl⟩ := StoreState.tear_eq_some hu
      rfl

lemma StoreInv.exec {ops : List StoreOp} (hs : StoreInv B s)
    (hops : Run.Guarded (storeStep B) (WritesOnFrameBoundary B) s ops)
    (h : Run.exec (storeStep B) s ops = some t) : StoreInv B t :=
  Run.exec_invariant_of_guarded (storeStep B) (fun _ _ _ hop hs hstep => hs.step hop hstep) hs hops
    h

end Appends

/-! ## One step -/

section Steps

variable {s t : HandleState}

/-- An overlay comes from a WAL that can be replayed. -/
lemma HandleState.openHandle_eq_some (hB : B.Lawful) (hs : StoreInv B s.wal) {opens : Bool}
    (h : s.openHandle B true opens = some t) :
    t.data = some (({} : Overlay).applyRecords t.served) ∧ t.served = s.wal.acked ∧
      t.wal.acked = s.wal.acked ∧ t.wal.isOpen = opens ∧ StoreInv B t.wal := by
  unfold HandleState.openHandle at h
  rw [if_pos rfl, hs.replay hB] at h
  dsimp only at h
  rw [Res.unwrapOr_ok] at h
  cases hdata : s.data with
  | some o => simp [hdata] at h
  | none =>
      rw [hdata] at h
      cases opens with
      | false =>
          obtain rfl := Option.some.inj h
          exact ⟨rfl, rfl, rfl, rfl, hs⟩
      | true =>
          dsimp only at h
          rw [if_pos rfl] at h
          obtain ⟨wal, hwal, rfl⟩ := Option.map_eq_some_iff.mp h
          have hinv : StoreInv B wal := @StoreInv.step B _ _ .openStore trivial hs hwal
          obtain rfl := Option.some.inj hwal
          exact ⟨rfl, rfl, rfl, rfl, hinv⟩

lemma HandleState.recordAndApply_eq_some {writes : BatchWrites}
    (h : s.recordAndApply B writes = some t) :
    ∃ o, s.data = some o ∧ t.data = some (o.applyRecords writes.recs) ∧
      t.served = s.served ++ writes.recs ∧ s.onStore B (writes.map appendOp) = some t.wal := by
  obtain ⟨o, ho, h⟩ := Option.bind_eq_some_iff.mp h
  obtain ⟨wal, hwal, rfl⟩ := Option.map_eq_some_iff.mp h
  exact ⟨o, ho, rfl, rfl, hwal⟩

lemma HandleState.crash_eq_some {writes : BatchWrites} {torn : Option (WalRecord × ℕ)}
    (h : s.crash B writes torn = some t) :
    s.data.isSome = true ∧ t.data = none ∧
      s.onStore B (writes.map appendOp ++ [dieOp torn]) = some t.wal := by
  obtain ⟨o, ho, h⟩ := Option.bind_eq_some_iff.mp h
  obtain ⟨wal, hwal, rfl⟩ := Option.map_eq_some_iff.mp h
  exact ⟨by simp [ho], rfl, hwal⟩

/-- Store events happen where there is a store. -/
lemma HandleState.onStore_eq_some {ops : List StoreOp} {w : StoreState}
    (h : s.onStore B ops = some w) :
    (s.wal.isOpen = false ∧ w = s.wal) ∨
      (s.wal.isOpen = true ∧ Run.exec (storeStep B) s.wal ops = some w) := by
  unfold HandleState.onStore at h
  cases hopen : s.wal.isOpen with
  | false =>
      rw [hopen] at h
      exact Or.inl ⟨rfl, (Option.some.inj h).symm⟩
  | true =>
      rw [hopen] at h
      exact Or.inr ⟨rfl, h⟩

/-- What store events in a batch do, whether the store is there or not. -/
lemma HandleState.onStore_appends {w : StoreState} {writes : BatchWrites}
    (hs : StoreInv B s.wal)
    (hok : s.wal.isOpen = true →
      Run.Guarded (storeStep B) (WritesOnFrameBoundary B) s.wal (writes.map appendOp))
    (h : s.onStore B (writes.map appendOp) = some w) :
    StoreInv B w ∧ w.isOpen = s.wal.isOpen ∧
      (∃ done, w.acked = s.wal.acked ++ done ∧ done.Sublist writes.recs) ∧
      (s.wal.isOpen = true → writes.Durable B → w.acked = s.wal.acked ++ writes.recs) := by
  rcases HandleState.onStore_eq_some h with ⟨hclosed, rfl⟩ | ⟨hopen, h⟩
  · refine ⟨hs, rfl, ⟨[], by simp, List.nil_sublist _⟩, ?_⟩
    intro hopen
    rw [hclosed] at hopen
    cases hopen
  · obtain ⟨hsame, hdone⟩ := exec_appendOps h
    exact ⟨hs.exec (hok hopen) h, hsame, hdone, fun _ hdur => exec_appendOps_durable hdur h⟩

/-- A crash acknowledges what was appended before it. -/
lemma HandleState.onStore_crash {w : StoreState} {writes : BatchWrites}
    {torn : Option (WalRecord × ℕ)} (hs : StoreInv B s.wal)
    (hok : KeepsWal B s (.crash writes torn))
    (h : s.onStore B (writes.map appendOp ++ [dieOp torn]) = some w) :
    StoreInv B w ∧ (∃ done, w.acked = s.wal.acked ++ done ∧ done.Sublist writes.recs) ∧
      (s.wal.isOpen = true → writes.Durable B → w.acked = s.wal.acked ++ writes.recs) := by
  rcases HandleState.onStore_eq_some h with ⟨hclosed, rfl⟩ | ⟨hopen, h⟩
  · refine ⟨hs, ⟨[], by simp, List.nil_sublist _⟩, ?_⟩
    intro hopen
    rw [hclosed] at hopen
    cases hopen
  · have hinv := hs.exec (hok hopen) h
    rw [Run.exec_append] at h
    obtain ⟨u, hu, hlast⟩ := Option.bind_eq_some_iff.mp h
    obtain ⟨w', hw', hnil⟩ := Option.bind_eq_some_iff.mp hlast
    obtain rfl := Option.some.inj hnil
    have hdie := storeStep_dieOp hw'
    refine ⟨hinv, ?_, fun _ hdur => hdie.trans (exec_appendOps_durable hdur hu)⟩
    obtain ⟨-, done, hdone, hsub⟩ := exec_appendOps hu
    exact ⟨done, hdie.trans hdone, hsub⟩

/-- Dropping the overlay truncates the WAL. -/
lemma HandleState.clear_eq_some (hs : StoreInv B s.wal) {truncates : Bool}
    (hok : KeepsWal B s (.clear truncates)) (h : s.clear B truncates = some t) :
    t.data = some {} ∧ t.served = [] ∧ t.wal.acked = [] ∧ t.wal.isOpen = true ∧
      StoreInv B t.wal := by
  obtain ⟨hopen, rfl⟩ := hok
  obtain ⟨o, -, h⟩ := Option.bind_eq_some_iff.mp h
  obtain ⟨wal, hwal, rfl⟩ := Option.map_eq_some_iff.mp h
  obtain ⟨hclosed, -⟩ | ⟨-, hwal⟩ := HandleState.onStore_eq_some hwal
  · rw [hopen] at hclosed
    cases hclosed
  obtain ⟨u, hu, hnil⟩ := Option.bind_eq_some_iff.mp hwal
  obtain rfl := Option.some.inj hnil
  have hinv : StoreInv B u := @StoreInv.step B _ _ .truncate trivial hs hu
  unfold storeStep at hu
  dsimp only at hu
  split at hu
  · obtain rfl := Option.some.inj hu
    exact ⟨rfl, rfl, rfl, hopen, hinv⟩
  · cases hu

/-- Every step keeps the invariant. -/
lemma HandleInv.step (hB : B.Lawful) {op : HandleOp} (hop : KeepsWal B s op) (hs : HandleInv B s)
    (h : handleStep B s op = some t) : HandleInv B t := by
  cases op with
  | openHandle reads opens =>
      obtain rfl : reads = true := hop
      obtain ⟨hdata, hserved, hacked, -, hinv⟩ := s.openHandle_eq_some hB hs.store h
      refine ⟨hinv, ?_, ?_⟩
      · intro o ho
        rw [hdata] at ho
        exact (Option.some.inj ho).symm
      · intro _
        rw [hacked, hserved]
  | recordAndApply writes =>
      obtain ⟨o, ho, hdata, hserved, hwal⟩ := HandleState.recordAndApply_eq_some h
      obtain ⟨hinv, -, ⟨done, hdone, hsub⟩, -⟩ := s.onStore_appends hs.store hop hwal
      refine ⟨hinv, ?_, ?_⟩
      · intro o' ho'
        rw [hdata] at ho'
        rw [← Option.some.inj ho', hserved, Overlay.applyRecords_append, ← hs.data o ho]
      · intro _
        rw [hdone, hserved]
        exact (hs.acked (by simp [ho])).append hsub
  | crash writes torn =>
      obtain ⟨-, hdata, hwal⟩ := HandleState.crash_eq_some h
      refine ⟨(s.onStore_crash hs.store hop hwal).1, ?_, ?_⟩
      · intro o ho
        simp [hdata] at ho
      · intro hup
        simp [hdata] at hup
  | clear truncates =>
      obtain ⟨hdata, hserved, hacked, -, hinv⟩ := HandleState.clear_eq_some hs.store hop h
      refine ⟨hinv, ?_, ?_⟩
      · intro o ho
        rw [hdata] at ho
        rw [← Option.some.inj ho, hserved]
        rfl
      · intro _
        rw [hacked]
        exact List.nil_sublist _

/-- Steps whose appends succeed leave nothing in memory that the WAL does not have. -/
lemma HandleState.InStep.step (hB : B.Lawful) {op : HandleOp} (hop : KeepsWal B s op)
    (hdur : op.Durable B) (hinv : HandleInv B s) (hs : s.InStep) (h : handleStep B s op = some t) :
    t.InStep := by
  intro hup
  cases op with
  | openHandle reads opens =>
      obtain rfl : reads = true := hop
      obtain ⟨-, hserved, hacked, hopen, -⟩ := s.openHandle_eq_some hB hinv.store h
      exact ⟨hopen.trans hdur, hacked.trans hserved.symm⟩
  | recordAndApply writes =>
      obtain ⟨o, ho, -, hserved, hwal⟩ := HandleState.recordAndApply_eq_some h
      obtain ⟨hopen, hsame⟩ := hs (by simp [ho])
      obtain ⟨-, hstill, -, hall⟩ := s.onStore_appends hinv.store hop hwal
      exact ⟨hstill.trans hopen, by rw [hall hopen hdur, hserved, hsame]⟩
  | crash writes torn =>
      obtain ⟨-, hdata, -⟩ := HandleState.crash_eq_some h
      simp [hdata] at hup
  | clear truncates =>
      obtain ⟨-, hserved, hacked, hopen, -⟩ := HandleState.clear_eq_some hinv.store hop h
      exact ⟨hopen, hacked.trans hserved.symm⟩

end Steps

/-! ## Restarts -/

lemma handleInv_initial : HandleInv B .initial := by
  refine ⟨⟨[], [], rfl, .nil, Or.inl rfl⟩, ?_, ?_⟩
  · intro o ho
    cases ho
  · intro hup
    cases hup

/-- A daemon that dies anywhere in a batch is followed by one whose overlay is that of a sublist of
the records served before and of those the batch had got to; if no append of the run failed, it is
the overlay served before with just these records on top. -/
theorem restart_serves_applied (hB : B.Lawful) {ops : List HandleOp} {s s' : HandleState}
    {o : Overlay} {writes : BatchWrites} {torn : Option (WalRecord × ℕ)}
    (hops : Run.Guarded (handleStep B) (KeepsWal B) .initial (ops ++ [.crash writes torn]))
    (hrun : Run.exec (handleStep B) .initial ops = some s) (hup : s.data = some o)
    (hcrash : handleStep B s (.crash writes torn) = some s') :
    o = ({} : Overlay).applyRecords s.served ∧
      ∃ t, handleStep B s' (.openHandle true true) = some t ∧
        t.data = some (({} : Overlay).applyRecords t.served) ∧
        t.served.Sublist (s.served ++ writes.recs) ∧
        ((∀ op ∈ ops, op.Durable B) → writes.Durable B →
          t.data = some (o.applyRecords writes.recs)) := by
  have hinv : HandleInv B s := Run.exec_invariant_of_guarded (handleStep B)
    (fun _ _ _ hop hs hstep => hs.step hB hop hstep) handleInv_initial (hops.left _) hrun
  have hkeeps : KeepsWal B s (.crash writes torn) := (hops.right _ hrun).1
  obtain ⟨-, hdown, hwal⟩ := HandleState.crash_eq_some hcrash
  obtain ⟨hstore, ⟨done, hdone, hsub⟩, hall⟩ := s.onStore_crash hinv.store hkeeps hwal
  obtain ⟨t, ht⟩ : ∃ t, s'.openHandle B true true = some t := by
    unfold HandleState.openHandle
    rw [if_pos rfl, hstore.replay hB, hdown]
    exact ⟨_, rfl⟩
  obtain ⟨hdata, hserved, -, -, -⟩ := s'.openHandle_eq_some hB hstore ht
  have ho := hinv.data o hup
  have hisSome : s.data.isSome = true := by simp [hup]
  refine ⟨ho, t, ht, hdata, ?_, ?_⟩
  · rw [hserved, hdone]
    exact (hinv.acked hisSome).append hsub
  · intro hdur hwrites
    have hboth := (hops.left _).and_forall (handleStep B) hdur
    have hstart : HandleInv B .initial ∧ HandleState.initial.InStep :=
      ⟨handleInv_initial, fun habs => by simp [HandleState.initial] at habs⟩
    have hkept : ∀ s op s', KeepsWal B s op ∧ op.Durable B → HandleInv B s ∧ s.InStep →
        handleStep B s op = some s' → HandleInv B s' ∧ s'.InStep := by
      rintro s op s' ⟨hop, hdur⟩ ⟨hs, hin⟩ hstep
      exact ⟨hs.step hB hop hstep, hin.step hB hop hdur hs hstep⟩
    obtain ⟨-, hsame⟩ := Run.exec_invariant_of_guarded (handleStep B) hkept hstart hboth hrun
    obtain ⟨hopen, hacked⟩ := hsame hisSome
    rw [hdata, hserved, hall hopen hwrites, hacked, Overlay.applyRecords_append, ← ho]

lemma durable_delete (path : String) (h : ∃ frame,
    encodeRecord standardBincode (.delete path) = .ok frame) :
    BatchWrites.Durable standardBincode [(.delete path, none)] := by
  intro w hw
  obtain rfl := List.mem_singleton.mp hw
  exact ⟨rfl, h⟩

/-- A batch, a compaction, and a daemon that dies three bytes into the second of two appends. -/
theorem restart_serves_applied_torn :
    ∃ t : HandleState, Run.exec (handleStep standardBincode) .initial
        [.openHandle true true, .recordAndApply [(.delete "/a", none)], .clear true,
          .crash [(.delete "/b", none)] (some (.delete "/c", 3)), .openHandle true true] = some t ∧
      t.data = some (({} : Overlay).applyRecords [.delete "/b"]) := by
  have h := @restart_serves_applied standardBincode standardBincode_lawful
    [.openHandle true true, .recordAndApply [(.delete "/a", none)], .clear true]
    ⟨⟨some [], true, [], false⟩, some {}, []⟩
    ⟨⟨some (toLE 4 4 ++ [1, 2, 47, 98] ++ [4, 0, 0]), false, [.delete "/b"], true⟩, none, []⟩ {}
    [(.delete "/b", none)] (some (.delete "/c", 3)) (by decide) rfl rfl rfl
  obtain ⟨-, t, ht, -, -, hdata⟩ := h
  have hdur : ∀ op ∈ [HandleOp.openHandle true true, .recordAndApply [(.delete "/a", none)],
      .clear true], op.Durable standardBincode := by
    intro op hop
    simp only [List.mem_cons, List.not_mem_nil, or_false] at hop
    rcases hop with rfl | rfl | rfl
    · rfl
    · exact durable_delete "/a" ⟨_, rfl⟩
    · trivial
  exact ⟨t, ht, hdata hdur (durable_delete "/b" ⟨_, rfl⟩)⟩

end DeepFinder
