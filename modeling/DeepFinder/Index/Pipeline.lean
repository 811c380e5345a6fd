import DeepFinder.Index.Atomicity
import DeepFinder.Lib.Channel

/-!
# The pipeline of a build

The threads of the walk send a record for every entry that they visit through a channel of
`CHANNEL_CAP` records to the consumer, which owns both builders and writes the shards.  The
consumer gives up when it cannot make its directory or write a shard, be it a full one or the last
partial one that it writes when the channel is closed; the sends of the walk then fail, and the walk
quits.

`parallel_build` says of every schedule, however the walk is divided among its threads, that the
index holds the entries of the walk, each once; that no more records than the channel takes are
waiting; that the build always comes to an end; and that a build whose consumer gives up publishes
nothing.  That the index opens again as these entries rests on `BuildFits`: fewer than `2 ^ 32`
records, a database and shards that fit their formats, and a build time on 64 bits.
-/

namespace DeepFinder

open ByteString

variable {ov : Overflow} {buildTime : ℕ} {c c' : Consumer} {recs : List BuildRec}

/-- `CHANNEL_CAP`. -/
def channelCap : ℕ := 64

def Consumer.start (buildTime : ℕ) : Consumer := { fnb := DbBuilder.setBuildTime {} buildTime }

/-- The consumer may give up: before its first record, where it makes the content directory, and at
a record that makes it write a shard. -/
def Consumer.mayFail (ov : Overflow) (buildTime : ℕ) (c : Consumer) (next : Option BuildRec) :
    Bool :=
  c.fnb.paths.isEmpty || match next with
    | none => false
    | some r =>
        match c.receive ov buildTime r with
        | .ok c' => c.written.length < c'.written.length
        | .error _ => true

/-- The consumer thread, up to `fnb.finish()`.  Once the channel is closed it writes the last
partial shard, and may fail there too. -/
def buildConsumer (ov : Overflow) (buildTime : ℕ) : Channel.Consumer BuildRec Consumer where
  accept c r := Except.toOption (c.receive ov buildTime r)
  mayFail := Consumer.mayFail ov buildTime
  fails {c r} h := by
    cases hreceive : c.receive ov buildTime r with
    | ok c' =>
        rw [hreceive] at h
        cases h
    | error e => simp [Consumer.mayFail, hreceive]
  finish c := Except.toOption (c.close buildTime)
  mayFailLast c := decide (0 < c.shard.docCount)
  failsLast {c} h := by
    refine decide_eq_true (Nat.pos_of_ne_zero fun hzero => ?_)
    rw [Consumer.close, if_neg (by omega)] at h
    cases h

/-- A build from the moment its consumer has written the last shard: the files that it writes. -/
def finishBuild (z : Zstd) (buildTime : ℕ) (c : Consumer) : Res (List (IndexFile × Bytes)) := do
  let fnBytes ← c.fnb.finish z
  let manifest : Manifest := ⟨buildTime, c.contentDocs, c.entries⟩
  pure (c.written ++ [(.db, fnBytes), (manifestFile, manifest.encode)])

/-- The threads of the walk with the records that they will send, and a consumer that listens. -/
def buildStart (buildTime : ℕ) (parts : List (List BuildRec)) :
    Channel.State BuildRec Consumer where
  producers := parts
  receiver := .running (Consumer.start buildTime)

/-- The records that a consumer has taken from the channel. -/
lemma receiveAll_of_foldlM
    (h : recs.foldlM (buildConsumer ov buildTime).accept c = some c') :
    Consumer.receiveAll ov buildTime recs c = .ok c' := by
  induction recs generalizing c with
  | nil =>
      obtain rfl := Option.some.inj h
      rfl
  | cons r recs ih =>
      rw [List.foldlM_cons] at h
      obtain ⟨c₁, haccept, hrest⟩ := Option.bind_eq_some_iff.mp h
      cases hreceive : c.receive ov buildTime r with
      | error e => simp [buildConsumer, hreceive, Except.toOption] at haccept
      | ok d =>
          obtain rfl : d = c₁ := by simpa [buildConsumer, hreceive, Except.toOption] using haccept
          rw [Consumer.receiveAll, hreceive, bind_ok, ih hrest]

lemma finishBuild_eq {z : Zstd}
    (h : Consumer.receiveAll ov buildTime recs (Consumer.start buildTime) = .ok c)
    (hclose : (buildConsumer ov buildTime).finish c = some c') :
    finishBuild z buildTime c' = buildWritesUnder ov z buildTime recs := by
  have hclose' : c.close buildTime = .ok c' := by
    cases hc : c.close buildTime with
    | error e => simp [buildConsumer, hc, Except.toOption] at hclose
    | ok d =>
        obtain rfl : d = c' := by simpa [buildConsumer, hc, Except.toOption] using hclose
        rfl
  rw [buildWritesUnder, Consumer.runUnder, bind_assoc]
  show _ = Consumer.receiveAll ov buildTime recs (Consumer.start buildTime) >>= _
  rw [h, bind_ok, hclose', bind_ok]
  rfl

/-! ## What the consumer has written -/

def Consumer.OnlyShards (c : Consumer) : Prop :=
  ∀ w ∈ c.written, ∃ id, w.1 = .content (shardName id)

lemma Consumer.OnlyShards.receive (h : c.OnlyShards) {r : BuildRec}
    (hreceive : c.receive ov buildTime r = .ok c') : c'.OnlyShards := by
  unfold Consumer.receive at hreceive
  cases hcontent : r.content with
  | none =>
      rw [hcontent] at hreceive
      obtain rfl := Except.ok.inj hreceive
      exact h
  | some bytes =>
      rw [hcontent] at hreceive
      obtain ⟨n, -, hreceive⟩ := bind_eq_ok_iff.mp hreceive
      dsimp only at hreceive
      split at hreceive
      · obtain ⟨e, hemit, hreceive⟩ := bind_eq_ok_iff.mp hreceive
        obtain ⟨id, -, hreceive⟩ := bind_eq_ok_iff.mp hreceive
        obtain ⟨base, -, hreceive⟩ := bind_eq_ok_iff.mp hreceive
        obtain ⟨sbytes, -, hemit⟩ := bind_eq_ok_iff.mp hemit
        obtain rfl := Except.ok.inj hemit
        obtain rfl := Except.ok.inj hreceive
        intro w hw
        rcases List.mem_append.mp hw with hw | hw
        · exact h w hw
        · obtain rfl := List.mem_singleton.mp hw
          exact ⟨_, rfl⟩
      · obtain rfl := Except.ok.inj hreceive
        exact h

lemma Consumer.OnlyShards.receiveAll (h : c.OnlyShards)
    (hall : Consumer.receiveAll ov buildTime recs c = .ok c') : c'.OnlyShards := by
  induction recs generalizing c with
  | nil =>
      obtain rfl := Except.ok.inj hall
      exact h
  | cons r recs ih =>
      obtain ⟨c₁, hreceive, hrest⟩ := bind_eq_ok_iff.mp hall
      exact ih (h.receive hreceive) hrest

lemma Consumer.OnlyShards.apply (h : c.OnlyShards) {f : IndexFile}
    (hf : f = .db ∨ f = manifestFile) (old : Disk) : Writes.apply c.written old f = old f := by
  refine Writes.apply_of_notMem (fun hmem => ?_) old
  obtain ⟨w, hw, hname⟩ := List.mem_map.mp hmem
  obtain ⟨id, hid⟩ := h w hw
  rw [hid] at hname
  rcases hf with rfl | rfl
  · cases hname
  · exact shardName_ne_manifest id hname

/-! ## Every schedule -/

lemma reopens_of_perm {z : Zstd} (hz : z.Lawful) {walked : List BuildRec} (hperm : recs.Perm walked)
    (hfits : BuildFits z buildTime recs) : ∃ ws, buildWrites z buildTime recs = .ok ws ∧
      ∀ old, ReopensAs z (Writes.apply ws old) (recDocs walked)
        (walked.filterMap BuildRec.file?) := by
  obtain ⟨ws, hws, hholds⟩ := hfits.holdsIndex hz
  refine ⟨ws, hws, fun old => ⟨recDocs recs, recGroups recs, (hholds old).reopens, ?_, ?_⟩⟩
  · exact hperm.map _
  · rw [recGroups, flatten_shardGroups, List.nil_append]
    exact hperm.filterMap _

/-- However the walk is divided among its threads, and whatever the schedule: at most
`CHANNEL_CAP` records are waiting; the schedule is not longer than twice the number of records,
and until the build has ended a step is enabled; a consumer that gets through has taken every
record of the walk once, and its index reopens as these records if they fit it; and a consumer
that gives up, at whatever write, has left the database and the manifest as they were. -/
theorem parallel_build (ov : Overflow) {z : Zstd} (hz : z.Lawful) {env : WalkEnv}
    {opts : ContentBuildOptions} {fs : FileSystem} {parts : List (List BuildRec)}
    (hparts : parts.flatten.Perm (buildRecs env opts fs)) {moves : List Channel.Move}
    {s : Channel.State BuildRec Consumer}
    (hrun : Run.exec (Channel.step (buildConsumer ov buildTime) channelCap)
      (buildStart buildTime parts) moves = some s) :
    s.queue.length ≤ channelCap ∧ moves.length ≤ 2 * (buildRecs env opts fs).length + 1 ∧
    (s.Ended ∨ ∃ m s', Channel.step (buildConsumer ov buildTime) channelCap s m = some s') ∧
    (∀ c, s.receiver = .closed c → ∃ recs : List BuildRec, recs.Perm (buildRecs env opts fs) ∧
      finishBuild z buildTime c = buildWritesUnder ov z buildTime recs ∧
      (BuildFits z buildTime recs → ∃ ws, finishBuild z buildTime c = .ok ws ∧ ∀ old,
        ReopensAs z (Writes.apply ws old) (recDocs (buildRecs env opts fs))
          ((buildRecs env opts fs).filterMap BuildRec.file?))) ∧
    ∀ c, s.receiver = .failed c → ∀ old : Disk, Writes.apply c.written old .db = old .db ∧
      Writes.apply c.written old manifestFile = old manifestFile := by
  have hsound : Channel.Sound (buildConsumer ov buildTime) channelCap (Consumer.start buildTime)
      parts.flatten s := (Channel.sound_start parts).exec hrun
  refine ⟨hsound.length_le, ?_, ?_, fun c hc => ?_, fun c hc old => ?_⟩
  · have hlen := Channel.length_add_weight_le hrun
    have hweight : (buildStart buildTime parts).weight = 2 * parts.flatten.length + 1 := rfl
    rw [hweight, hparts.length_eq] at hlen
    omega
  · by_cases hend : s.Ended
    · exact Or.inl hend
    · exact Or.inr (Channel.exists_step hsound (by decide) hend)
  · obtain ⟨recs, c₁, hperm, hfold, hclose⟩ := hsound.of_closed hc
    have hfinish := finishBuild_eq (z := z) (receiveAll_of_foldlM hfold) hclose
    have hwalked := hperm.trans hparts
    refine ⟨recs, hwalked, hfinish, fun hfits => ?_⟩
    rw [hfinish, buildWritesUnder_eq z hfits.length_files_lt]
    exact reopens_of_perm hz hwalked hfits
  · obtain ⟨recs, lost, -, hfold⟩ := hsound.of_failed hc
    have hnone : (Consumer.start buildTime).OnlyShards := fun w hw => absurd hw List.not_mem_nil
    have hshards := hnone.receiveAll (receiveAll_of_foldlM hfold)
    exact ⟨hshards.apply (Or.inl rfl) old, hshards.apply (Or.inr rfl) old⟩

/-- A file that is sent before its directory. -/
theorem parallel_build_two :
    let env : WalkEnv := {
      standard := fun _ _ _ => true
      otherDevice := fun _ => false
      ignoreMatcher := none }
    let fs : FileSystem := {
      root := utf8 "/proj"
      rootName := utf8 "proj"
      tree := .dir ⟨64, some 1⟩ [(utf8 "key.txt", .leaf (.file ⟨2, some 1⟩ (some [107, 10])))]
      names_nodup := by simp [FileTree.NamesNodup, FileTree.EntriesNodup]
      names_valid := by simp [FileTree.AllNames, FileTree.EntriesAllNames]; decide }
    let parts : List (List BuildRec) :=
      [[⟨"/proj", true, 64, 1, none⟩], [⟨"/proj/key.txt", false, 2, 1, some [107, 10]⟩]]
    let moves : List Channel.Move := [.send 1, .send 0, .receive, .receive, .close]
    ∃ s c, Run.exec (Channel.step (buildConsumer .wraps 5) channelCap) (buildStart 5 parts) moves =
        some s ∧ s.receiver = .closed c ∧ s.queue.length ≤ channelCap ∧
      ∃ recs : List BuildRec, recs.Perm (buildRecs env {} fs) ∧
        finishBuild .stored 5 c = buildWritesUnder .wraps .stored 5 recs := by
  intro env fs parts moves
  have hrecs : buildRecs env {} fs = parts.flatten := by decide +kernel
  have hany : (Run.exec (Channel.step (buildConsumer .wraps 5) channelCap) (buildStart 5 parts)
      moves).any (fun s => match s.receiver with
        | .closed _ => true
        | _ => false) = true := by decide +kernel
  obtain ⟨s, hs, hreceiver⟩ := (Option.any_eq_true _ _).mp hany
  obtain ⟨c, hc⟩ : ∃ c, s.receiver = .closed c := by
    cases hr : s.receiver with
    | closed c => exact ⟨c, rfl⟩
    | running c => simp [hr] at hreceiver
    | failed c => simp [hr] at hreceiver
  obtain ⟨hqueue, -, -, hclosed, -⟩ := @parallel_build 5 .wraps .stored Zstd.stored_lawful env {}
    fs parts (by rw [hrecs]) moves s hs
  obtain ⟨recs, hperm, hfinish, -⟩ := hclosed c hc
  exact ⟨s, c, hs, hc, hqueue, recs, hperm, hfinish⟩

end DeepFinder
