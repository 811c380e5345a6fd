import DeepFinder.Index.Atomicity
import DeepFinder.Lib.Replace

/-!
# Swapping index files under the daemon

`atomic_write` writes a file through a temporary file beside it, and the daemon holds the files that
it has opened: the database through a `FileSource`, the shards through maps of them.  A map must
never see its file change.

`mapped_files_whole` says that it never does, over all runs in which no two builds write one file
at once, and that every file the daemon opens is a whole file of some build.
`overlapping_builds_change_a_map` is a run of two builds of one database, where a file that the
daemon holds changes under it.

Files are the contents of inodes, and names point to them; a writer that dies leaves a temporary
file behind, which the next writer of that name truncates.  `Exclusive` asks that no two writers of
one file overlap.  The files at the beginning are whole, and every later one is of a build whose
records fit the formats (`BuildFits`).
-/

namespace DeepFinder

open ByteString

/-! ## The files of the databases -/

/-- A file of an index, or the temporary file beside its database. -/
inductive DiskName where
  | file (f : IndexFile)
  | dbTmp
  deriving DecidableEq, Repr

abbrev DiskPath := String × DiskName

def tmpSuffix : String := ".tmp"

/-- `with_file_name(format!("\x7b\x7d.tmp", file_name))`. -/
def tmpName : DiskName → DiskName
  | .file .db => .dbTmp
  | .file (.content name) => .file (.content (name ++ tmpSuffix))
  | .dbTmp => .dbTmp

def DiskName.Published : DiskName → Prop
  | .file .db => True
  | .file (.content name) => ¬ tmpSuffix.toList <:+ name.toList
  | .dbTmp => False

/-- `atomic_write` in the directories of the databases. -/
def atomicWrite : Replace.Scheme DiskPath where
  tmp p := (p.1, tmpName p.2)
  target p := p.2.Published
  injective {p q} hp hq h := by
    obtain ⟨d, n⟩ := p
    obtain ⟨e, m⟩ := q
    obtain ⟨rfl, htmp⟩ := Prod.mk.inj h
    cases n with
    | dbTmp => exact absurd hp id
    | file f =>
        cases m with
        | dbTmp => exact absurd hq id
        | file g =>
            cases f with
            | db =>
                cases g with
                | db => rfl
                | content name => cases htmp
            | content name =>
                cases g with
                | db => cases htmp
                | content name' =>
                    have hname := IndexFile.content.inj (DiskName.file.inj htmp)
                    have hchars := congrArg String.toList hname
                    rw [String.toList_append, String.toList_append] at hchars
                    rw [String.toList_inj.mp (List.append_cancel_right hchars)]
  apart {p} hp := by
    obtain ⟨d, n⟩ := p
    cases n with
    | dbTmp => exact id
    | file f =>
        cases f with
        | db => exact id
        | content name =>
            refine fun h => h ?_
            rw [String.toList_append]
            exact List.suffix_append _ _

/-! ## Whole files -/

/-- The bytes are a whole file of an index. -/
def IndexFile.Whole (z : Zstd) : IndexFile → Bytes → Prop
  | .db, bytes => ∃ r docs, DbReader.open bytes = .ok r ∧ (r.view z).Indexes docs
  | .content name, bytes =>
      (IndexFile.content name = manifestFile → ∃ m, Manifest.decode bytes = some m) ∧
        ∀ id, name = shardName id →
          ∃ r files, ShardReader.open bytes = .ok r ∧ r.view.Indexes files

variable {z : Zstd}

/-- What a build writes are whole files. -/
lemma whole_of_build (hz : z.Lawful) {buildTime : ℕ} {recs : List BuildRec}
    (hfits : BuildFits z buildTime recs) {ws : List (IndexFile × Bytes)}
    (hbuild : buildWrites z buildTime recs = .ok ws) {f : IndexFile} {data : Bytes}
    (hmem : (f, data) ∈ ws) : f.Whole z data := by
  obtain ⟨ws', hbuild', hholds⟩ := hfits.holdsIndex hz
  obtain rfl := Except.ok.inj (hbuild.symm.trans hbuild')
  obtain ⟨hdb, hmanifest, hslots⟩ := hholds fun _ => none
  obtain ⟨shards, fnBytes, hshards, hws⟩ := exists_publishWrites hbuild
  -- each name is written once
  have hread : Writes.apply ws (fun _ => none) f = some data := by
    obtain ⟨i, hi⟩ := List.mem_iff_getElem?.mp hmem
    have hnodup : (ws.map Prod.fst).Nodup := hws ▸ nodup_publishWrites _ _ _
    have hall := Writes.apply_take hnodup hi ws.length fun _ => none
    rw [List.take_length, if_pos (List.getElem?_eq_some_iff.mp hi).1] at hall
    exact hall
  cases f with
  | db =>
      obtain ⟨bytes, r, hbytes, hr⟩ := hdb
      obtain rfl := Option.some.inj (hread.symm.trans hbytes)
      exact ⟨r, _, hr⟩
  | content name =>
      refine ⟨fun hname => ?_, fun id hid => ?_⟩
      · rw [hname] at hread
        obtain ⟨bytes, m, hbytes, hm, -⟩ := hmanifest
        obtain rfl := Option.some.inj (hread.symm.trans hbytes)
        exact ⟨m, hm⟩
      · subst hid
        have hslot : ∃ i, i < shards.length ∧ shardName id = shardName (0 + i) := by
          have hname := List.mem_map_of_mem (f := Prod.fst) hmem
          rw [hws, publishWrites, List.map_append] at hname
          rcases List.mem_append.mp hname with hname | hname
          · obtain ⟨i, hi, heq⟩ := name_of_mem_shardWrites hname
            exact ⟨i, hi, IndexFile.content.inj heq⟩
          · rcases List.mem_cons.mp hname with hname | hname
            · cases hname
            · exact absurd (List.mem_singleton.mp hname) (shardName_ne_manifest id)
        obtain ⟨i, hi, heq⟩ := hslot
        obtain rfl : id = 0 + i := shardName_injective heq
        rw [length_finishShards hshards] at hi
        obtain ⟨bytes, r, hbytes, hr⟩ := hslots (0 + i) _
          (List.getElem?_eq_getElem (by rw [Nat.zero_add]; exact hi))
        obtain rfl := Option.some.inj (hread.symm.trans hbytes)
        exact ⟨r, _, hr⟩

/-- A call of `atomic_write` in a build whose files fit their formats. -/
def BuildCall (z : Zstd) (p : DiskPath) (data : Bytes) : Prop :=
  ∃ f buildTime recs ws, p.2 = .file f ∧ BuildFits z buildTime recs ∧
    buildWrites z buildTime recs = .ok ws ∧ (f, data) ∈ ws

/-- The files of the databases are whole: under every name of an index file stands nothing, or a
file of that kind that opens. -/
def WholeFiles (z : Zstd) (s : Replace.State DiskPath UInt8) : Prop :=
  ∀ p f bytes, atomicWrite.target p → p.2 = .file f → s.contents p = some bytes → f.Whole z bytes

/-- Over whole files, in a run of builds that write no file at the same time, and of which any may
die at any step: a file that is held does not change any more from the moment when it was opened;
and every file that is held, and every file that stands under its name, is whole. -/
theorem mapped_files_whole (hz : z.Lawful) {names : DiskPath → Option ℕ} {bytes : ℕ → Bytes}
    {next : ℕ} (hunique : ∀ {p q i}, names p = some i → names q = some i → p = q)
    (hlt : ∀ {p i}, names p = some i → i < next)
    (hwhole : WholeFiles z { names := names, bytes := bytes, next := next })
    {before after : List (Replace.Move DiskPath UInt8)}
    {mid s : Replace.State DiskPath UInt8}
    (hcalls : ∀ p data, .start p data ∈ before ++ after → BuildCall z p data)
    (hok : Run.Guarded (Replace.step atomicWrite) (Replace.Exclusive atomicWrite)
      { names := names, bytes := bytes, next := next } (before ++ after))
    (hbefore : Run.exec (Replace.step atomicWrite)
      { names := names, bytes := bytes, next := next } before = some mid)
    (hafter : Run.exec (Replace.step atomicWrite) mid after = some s) :
    (∀ e ∈ mid.opened, e ∈ s.opened ∧ s.bytes e.2 = mid.bytes e.2) ∧
      (∀ e ∈ s.opened, ∀ f, e.1.2 = .file f → f.Whole z (s.bytes e.2)) ∧ WholeFiles z s := by
  have hstart : Replace.Sound atomicWrite { names := names, bytes := bytes, next := next } :=
    Replace.sound_start hunique hlt
  have hrun : Run.exec (Replace.step atomicWrite)
      { names := names, bytes := bytes, next := next } (before ++ after) = some s := by
    rw [Run.exec_append, hbefore]
    exact hafter
  obtain ⟨hmid, -, -, -⟩ := hstart.exec hok.left hbefore
  obtain ⟨-, hheld, -, -⟩ := hmid.exec (hok.right _ hbefore) hafter
  obtain ⟨hsound, -, hopened, ws, hreplaced⟩ := hstart.exec hok hrun
  -- what the writers have to write is whole
  have hwriters : ∀ w ∈ s.writers, BuildCall z w.path w.data :=
    Replace.writers_exec (by simp) hcalls hrun
  have hdata : ∀ {p : DiskPath} {l : Bytes} {f : IndexFile}, p.2 = .file f →
      (∃ w ∈ s.writers, w.path = p ∧ w.data = l) → f.Whole z l := by
    rintro p l f hf ⟨w, hw, rfl, rfl⟩
    obtain ⟨g, buildTime, recs, ws, hg, hfits, hbuild, hmem⟩ := hwriters w hw
    obtain rfl := DiskName.file.inj (hf.symm.trans hg)
    exact whole_of_build hz hfits hbuild hmem
  refine ⟨hheld, fun e he f hf => ?_, fun p f l hp hf hl => ?_⟩
  · rcases hopened e he with hnone | hfirst | hwriter
    · cases hnone
    · exact hwhole e.1 f _ (hsound.opened e he).1 hf hfirst
    · exact hdata hf hwriter
  · rcases hreplaced.contents_eq hp hl with hfirst | hwriter
    · exact hwhole p f l hp hf hfirst
    · exact hdata hf hwriter

/-- The run of a build that replaces the manifest of an empty index by the same one, while the
daemon holds the old file. -/
theorem mapped_files_whole_manifest :
    let manifest : DiskPath := ("home", .file manifestFile)
    let data : Bytes := (recManifest 5 []).encode
    let names : DiskPath → Option ℕ := fun p => if p = manifest then some 0 else none
    let start : Replace.State DiskPath UInt8 :=
      { names := names, bytes := fun _ => data, next := 1 }
    let before : List (Replace.Move DiskPath UInt8) :=
      [.hold manifest, .start manifest data, .create 0, .write 0 4]
    let after : List (Replace.Move DiskPath UInt8) := [.write 0 100, .rename 0, .hold manifest]
    ∃ mid s, Run.exec (Replace.step atomicWrite) start before = some mid ∧
      Run.exec (Replace.step atomicWrite) mid after = some s ∧
      s.opened = [(manifest, 0), (manifest, 1)] ∧ s.bytes 0 = mid.bytes 0 ∧
      ∀ e ∈ s.opened, manifestFile.Whole .stored (s.bytes e.2) := by
  intro manifest data names start before after
  have hfits : BuildFits .stored 5 [] :=
    ⟨by decide, by decide, by decide +kernel, by simp [recGroups, shardGroups]⟩
  obtain ⟨ws, hbuild, -⟩ := hfits.holdsIndex Zstd.stored_lawful
  obtain ⟨shards, fnBytes, -, hws⟩ := exists_publishWrites hbuild
  have hmem : (manifestFile, data) ∈ ws := by rw [hws, publishWrites]; simp [data]
  have hcall : BuildCall .stored manifest data :=
    ⟨manifestFile, 5, [], ws, rfl, hfits, hbuild, hmem⟩
  have hruns : ∃ mid s, Run.exec (Replace.step atomicWrite) start before = some mid ∧
      Run.exec (Replace.step atomicWrite) mid after = some s ∧
      s.opened = [(manifest, 0), (manifest, 1)] :=
    ⟨_, _, rfl, rfl, rfl⟩
  obtain ⟨mid, s, hbefore, hafter, hopened⟩ := hruns
  have htarget : atomicWrite.target manifest := by
    show ¬ tmpSuffix.toList <:+ _
    decide
  have hnames : ∀ {p i}, names p = some i → p = manifest ∧ i = 0 := by
    intro p i hp
    obtain ⟨hp, hi⟩ := Option.ite_none_right_eq_some.mp hp
    exact ⟨hp, (Option.some.inj hi).symm⟩
  have hunique : ∀ {p q i}, names p = some i → names q = some i → p = q :=
    fun hp hq => (hnames hp).1.trans (hnames hq).1.symm
  have hlt : ∀ {p i}, names p = some i → i < 1 := fun hp => by rw [(hnames hp).2]; decide
  have hwhole : WholeFiles .stored start := by
    intro p f bytes hp hf hbytes
    obtain ⟨i, hi, rfl⟩ := Option.map_eq_some_iff.mp hbytes
    obtain ⟨rfl, -⟩ := hnames hi
    obtain rfl := DiskName.file.inj hf
    exact whole_of_build Zstd.stored_lawful hfits hbuild hmem
  have hcalls : ∀ p l, .start p l ∈ before ++ after → BuildCall .stored p l := by
    intro p l hpl
    obtain ⟨rfl, rfl⟩ : p = manifest ∧ l = data := by simpa [before, after] using hpl
    exact hcall
  obtain ⟨hheld, hopen, -⟩ := mapped_files_whole Zstd.stored_lawful hunique hlt hwhole hcalls
    ⟨htarget, ⟨htarget, by simp⟩, trivial, trivial, trivial, trivial, htarget, trivial⟩
    hbefore hafter
  have hmid : (manifest, 0) ∈ mid.opened := by
    obtain rfl := Option.some.inj hbefore
    exact List.mem_singleton_self _
  refine ⟨mid, s, hbefore, hafter, hopened, (hheld _ hmid).2, fun e he => hopen e he _ ?_⟩
  rw [hopened] at he
  rcases List.mem_cons.mp he with rfl | he
  · rfl
  · obtain rfl := List.mem_singleton.mp he
    rfl

/-- Two builds of a database at once, such as one of the daemon and one in the foreground: the
second truncates the temporary file of the first, which then publishes it; the daemon opens an empty
manifest, and sees it change. -/
theorem overlapping_builds_change_a_map :
    let manifest : DiskPath := ("home", .file manifestFile)
    let start : Replace.State DiskPath UInt8 :=
      { names := fun _ => none, bytes := fun _ => [], next := 0 }
    let before : List (Replace.Move DiskPath UInt8) :=
      [.start manifest (recManifest 5 []).encode, .create 0, .write 0 16,
        .start manifest (recManifest 6 []).encode, .create 1, .rename 0, .hold manifest]
    ∃ mid s, Run.exec (Replace.step atomicWrite) start before = some mid ∧
      Replace.step atomicWrite mid (.write 1 16) = some s ∧ mid.opened = [(manifest, 0)] ∧
      mid.bytes 0 = [] ∧ s.bytes 0 = (recManifest 6 []).encode :=
  ⟨_, _, rfl, rfl, rfl, rfl, rfl⟩

end DeepFinder
