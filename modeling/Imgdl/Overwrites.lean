import Imgdl.Files

/-!
# Images that overwrite each other

All files of a batch lie in one directory under names generated from the URLs and bodies.
If these names are apart from each other, from those of the sidecars and from that of the
summary (`NamesApart`), and all writes succeed, every success of a batch names a file with
the image of its URL (`images_kept`). Nothing makes the names apart : two URLs with the same
last segment have one name, and one image replaces the other (`image_overwritten`).
-/

set_option linter.unusedSectionVars false

namespace Imgdl

open Transition Interleaving

/-- The names of the images are apart : equal ones belong to equal images, and none is that
of a sidecar or of the summary. -/
structure NamesApart (env : Env) (config : Config) (b : Batch) : Prop where
  image : ∀ i j t u name, b.tasks i = some t → b.tasks j = some u →
    t.imageName env config = some name → u.imageName env config = some name → t.body = u.body
  sidecar : config.writeMetadata = true → ∀ i j t u name name', b.tasks i = some t →
    b.tasks j = some u → t.imageName env config = some name →
    u.imageName env config = some name' → name ≠ sidecarName name'
  summary : config.writeSummary = true → ∀ j t, b.tasks j = some t →
    t.imageName env config ≠ some summaryName

/-- Writes succeed. -/
def WritesSucceed : BatchEvent → Prop
  | .task _ (.perform w) => w = .ok
  | .performSummary w => w = .ok
  | _ => True

/-- A success. -/
def Succeeded (outcome : DownloadOutcome) : Prop :=
  ∃ path size hash elapsed, outcome = .success path size hash elapsed

/-- There is a file of this name with this content. -/
def HasFile (files : Files) (name : String) (bytes : Bytes) : Prop :=
  ∃ f, files name = some f ∧ f.content = bytes

/-- Every success names a file with the image of its URL. -/
def ImagesKept (b : Batch) (results : List DownloadResult) : Prop :=
  ∀ r ∈ results, ∀ path size hash elapsed, r.outcome = .success path size hash elapsed →
    ∃ j t bytes, b.tasks j = some t ∧ t.url = r.url ∧ t.body = some bytes ∧
      path.dir = b.outputDir ∧ HasFile b.scope.files path.fileName bytes

variable {env : Env} {config : Config} {p p' : PoolState} {b b' : Batch}

/-- A file survives a write under another name, and one of the same content. -/
theorem HasFile.write {files : Files} {name : String} {bytes : Bytes} {call : WriteCall}
    (h : HasFile files name bytes) (hcall : call.name = name → call.content = bytes) :
    HasFile (WriteEnd.apply files call .ok) name bytes := by
  obtain ⟨f, hf, hbytes⟩ := h
  by_cases hname : call.name = name
  · exact ⟨⟨call.content, call.writer⟩, by rw [WriteEnd.apply, ← hname, Function.update_self],
      hcall hname⟩
  · exact ⟨f, by rw [WriteEnd.apply, Function.update_of_ne (Ne.symm hname), hf], hbytes⟩

/-- The names of fewer images are apart too. -/
theorem NamesApart.of_step {e : BatchEvent} (h : NamesApart env config b')
    (hst : ∀ j t, b.tasks j = some t → Storing env config t)
    (hm : BatchMove env config p b e p' b') : NamesApart env config b := by
  -- a task keeps its image, and with it its name
  have later : ∀ i t name, b.tasks i = some t → t.imageName env config = some name →
      ∃ t', b'.tasks i = some t' ∧ t'.imageName env config = some name ∧ t'.body = t.body := by
    intro i t name ht hname
    cases hm with
    | @task j _ t₀ t' _ _ ht₀ _ hm =>
      rcases eq_or_ne i j with rfl | hij
      · obtain rfl : t = t₀ := Option.some.inj (ht.symm.trans ht₀)
        obtain ⟨bytes, hbody, -⟩ := Option.bind_eq_some_iff.1 hname
        have hbody' := (hst i t ht).body_eq hm hbody
        obtain ⟨hurl, hindex, -⟩ := hm.ident
        refine ⟨t', Function.update_self .., ?_, hbody'.trans hbody.symm⟩
        rw [Task.imageName, hbody', hurl, hindex, ← hbody]
        exact hname
      · exact ⟨t, (Function.update_of_ne hij _ _).trans ht, hname, rfl⟩
    | joined | joinedPanic | summaryPerformed | summarized => exact ⟨t, ht, hname, rfl⟩
    | closed =>
      rw [close_eq]
      exact ⟨t, ht, hname, rfl⟩
  refine ⟨fun i j t u name ht hu hn hn' => ?_, fun hw i j t u name name' ht hu hn hn' => ?_,
    fun hw j t ht hn => ?_⟩
  · obtain ⟨t', ht', hname, hbody⟩ := later i t name ht hn
    obtain ⟨u', hu', hname', hbody'⟩ := later j u name hu hn'
    rw [← hbody, ← hbody', h.image i j t' u' name ht' hu' hname hname']
  · obtain ⟨t', ht', hname, -⟩ := later i t name ht hn
    obtain ⟨u', hu', hname', -⟩ := later j u name' hu hn'
    exact h.sidecar hw i j t' u' name name' ht' hu' hname hname'
  · obtain ⟨t', ht', hname, -⟩ := later j t _ ht hn
    exact h.summary hw j t' ht' hname

/-- Every image whose write is over is in the directory. -/
structure Safe (env : Env) (config : Config) (b : Batch) : Prop where
  storing : ∀ j t, b.tasks j = some t → Storing env config t
  summary : SummaryJob config b
  images : ∀ j t name bytes, b.tasks j = some t → t.ImageDone Succeeded → t.body = some bytes →
    t.imageName env config = some name → HasFile b.scope.files name bytes

/-- How the write of an image comes to be over. -/
theorem TaskMove.done_of {sc sc' : Scope} {t t' : Task} {e : TaskEvent}
    (hm : TaskMove env config p sc t e p' sc' t') (h : t'.ImageDone Succeeded) :
    (t.ImageDone Succeeded ∧ t'.body = t.body ∧ t'.imageName env config = t.imageName env config) ∨
      ∃ home sem image call w, t.stage = .working home sem (.imageWrite image) ∧
        e = .perform w ∧ t.job = .queued call ∧ sc'.files = w.apply sc.files call ∧
        t'.body = t.body ∧ t'.imageName env config = t.imageName env config := by
  have hfetch := h.fetching
  cases hm with
  | accepted | acquireGlobal | lockFound | lockFresh | acquireHost | pool | answered | retry
  | redirect | resume => cases hfetch
  | rejected | failed | imageFailed =>
    obtain ⟨_, _, _, _, heq⟩ := h.of_finish
    cases heq
  | burst | unnamed =>
    cases h with
    | written hs | sidecar hs | returned hs => cases hs
  | stopped _ he _ =>
    rcases he with ⟨-, rfl⟩ | ⟨-, rfl⟩ <;> cases h with
    | written hs | sidecar hs | returned hs => cases hs
  | store =>
    cases h with
    | written _ hj => cases hj
    | sidecar hs | returned hs => cases hs
  | perform hq =>
    cases h with
    | written hs _ => exact Or.inr ⟨_, _, _, _, _, hs, rfl, hq, rfl, rfl, rfl⟩
    | sidecar hs hk => exact Or.inl ⟨.sidecar hs hk, rfl, rfl⟩
    | returned hs hk => exact Or.inl ⟨.returned hs hk, rfl, rfl⟩
  | imageDone hs hj | sidecar hs hj => exact Or.inl ⟨.written hs hj, rfl, rfl⟩
  | sidecarDone hs hj => exact Or.inl ⟨.sidecar hs h.of_finish, rfl, rfl⟩

namespace Safe

theorem start {urls : List String} {outputDir : String} {mkdir : Except String Unit}
    (hs : Started config urls outputDir mkdir b) : Safe env config b := by
  have hstoring : TaskInvariant env config (Storing env config) := storing_invariant
  refine ⟨fun _ _ => hstoring.start hs, .start hs, fun j t name bytes ht hdone _ _ => ?_⟩
  obtain ⟨url, firstIndex, rfl⟩ := hs.task_eq ht
  cases hdone with
  | written hs | sidecar hs | returned hs => cases hs

/-- A write of a task keeps the images of all tasks. -/
theorem write (h : Safe env config b) (hn : NamesApart env config b) {i j : ℕ} {t u : Task}
    {call : WriteCall} {name : String} {bytes : Bytes} (ht : b.tasks j = some t)
    (hq : t.job = .queued call) (hu : b.tasks i = some u) (hbody : u.body = some bytes)
    (hname : u.imageName env config = some name) (hf : HasFile b.scope.files name bytes) :
    HasFile (WriteEnd.apply b.scope.files call .ok) name bytes := by
  refine hf.write fun heq => ?_
  obtain ⟨name', bytes', hbody', hname', rfl | ⟨hmeta, hside, -⟩⟩ :=
    (h.storing j t ht).queued call hq
  · obtain rfl : name' = name := heq
    have hsame := hn.image i j u t name' hu ht hname hname'
    rw [hbody, hbody'] at hsame
    exact (Option.some.inj hsame).symm
  · exact absurd (heq.symm.trans hside) (hn.sidecar hmeta i j u t name name' hu ht hname hname')

theorem task (h : Safe env config b) (hn : NamesApart env config b) {sc' : Scope} {j : ℕ}
    {t t' : Task} {e : TaskEvent} (hok : WritesSucceed (.task j e)) (ht : b.tasks j = some t)
    (hm : TaskMove env config p b.scope t e p' sc' t') {i : ℕ} {u : Task} {name : String}
    {bytes : Bytes} (hu : Function.update b.tasks j (some t') i = some u)
    (hdone : u.ImageDone Succeeded) (hbody : u.body = some bytes)
    (hname : u.imageName env config = some name) : HasFile sc'.files name bytes := by
  have kept : ∀ {i u}, b.tasks i = some u → u.body = some bytes →
      u.imageName env config = some name → u.ImageDone Succeeded →
        HasFile sc'.files name bytes := by
    intro i u hu hbody hname hdone
    have hf := h.images i u name bytes hu hdone hbody hname
    rcases hm.files with heq | ⟨call, w, rfl, hq, heq, -⟩
    · rwa [heq]
    · obtain rfl : w = .ok := hok
      rw [heq]
      exact h.write hn ht hq hu hbody hname hf
  rcases update_eq_some hu with ⟨rfl, rfl⟩ | ⟨-, hu⟩
  · rcases hm.done_of hdone with ⟨hdone', hb, hn'⟩ |
        ⟨home, sem, image, call, w, hs, rfl, hq, heq, hb, hn'⟩
    · exact kept ht (hb ▸ hbody) (hn' ▸ hname) hdone'
    · -- the write of the image itself
      obtain ⟨hbody', hname', hjob⟩ := (h.storing i t ht).image home sem image hs
      obtain rfl := Option.some.inj (hbody'.symm.trans (hb ▸ hbody))
      obtain rfl := Option.some.inj (hname'.symm.trans (hn' ▸ hname))
      obtain rfl : w = .ok := hok
      rcases hjob with hjob | ⟨r, hjob⟩
      · obtain rfl := Job.queued.inj (hjob.symm.trans hq)
        rw [heq]
        exact ⟨_, Function.update_self .., rfl⟩
      · rw [hq] at hjob
        cases hjob
  · exact kept hu hbody hname hdone

theorem step {e : BatchEvent} (h : Safe env config b) (hn : NamesApart env config b)
    (hok : WritesSucceed e) (hm : BatchMove env config p b e p' b') : Safe env config b' := by
  have hstoring : TaskInvariant env config (Storing env config) := storing_invariant
  refine ⟨hstoring.move h.storing hm, h.summary.step hm,
    fun i u name bytes hu hdone hbody hname => ?_⟩
  cases hm with
  | task ht _ hm => exact h.task hn hok ht hm hu hdone hbody hname
  | joined | joinedPanic | summarized => exact h.images i u name bytes hu hdone hbody hname
  | closed =>
    rw [close_eq] at hu ⊢
    exact h.images i u name bytes hu hdone hbody hname
  | @summaryPerformed call w hq =>
    obtain rfl : w = .ok := hok
    refine (h.images i u name bytes hu hdone hbody hname).write fun heq => ?_
    obtain ⟨hw, hcall, -⟩ := h.summary call hq
    exact absurd (hname.trans (congrArg some (heq.symm.trans hcall))) (hn.summary hw i u hu)

end Safe

namespace Downloader

variable {s : State} {es : List (ℕ × DownloaderEvent)} {k : ℕ}

/-- The names of a run are apart in every state if they are in the last one. -/
theorem namesApart_of_run (hr : run (step env config) init es = some s)
    (hn : ∀ b, s.locals k = some b → NamesApart env config b) :
    Meets (step env config) (OnSteps k fun b _ => NamesApart env config b) init es := by
  have hstoring : TaskInvariant env config (Storing env config) := storing_invariant
  have hall : Meets (step env config) (fun _ _ => True) init es :=
    .of_forall (fun _ _ => trivial) init es
  have back : ∀ {s e s'}, (∀ k b j t, s.locals k = some b → b.tasks j = some t →
      Storing env config t) → step env config s e = some s' →
      (∀ b, s'.locals k = some b → NamesApart env config b) →
      ∀ b, s.locals k = some b → NamesApart env config b := by
    rintro s ⟨i, e⟩ s' hst hs hn b hb
    rcases eq_or_ne k i with rfl | hki
    · obtain ⟨be, b', rfl, hb', hm⟩ := step_some hs hb
      exact (hn b' hb').of_step (hst k b · · hb) hm
    · exact hn b ((Par.step_other hs hki).trans hb)
  have h0 : ∀ (k : ℕ) b j t, init.locals k = some b → b.tasks j = some t →
      Storing env config t := fun _ _ _ _ h => (nomatch h)
  exact (meets_of_good (fun _ _ _ hst _ hs => tasks_step hstoring hst hs)
    (fun _ _ _ hst _ hs hn => back hst hs hn)
    (fun _ _ _ hst _ hs hn _ b _ hb _ => back hst hs hn b hb) h0 hall hr hn).2

/-- If all writes succeed and the names are apart, the images of a call are safe. -/
theorem safe_of_run (hr : run (step env config) init es = some s)
    (hm : Meets (step env config) (OnSteps k fun _ e => WritesSucceed e) init es) {b : Batch}
    (hb : s.locals k = some b) (hn : NamesApart env config b) : Safe env config b := by
  have hapart := namesApart_of_run (k := k) hr fun b' hb' =>
    Option.some.inj (hb.symm.trans hb') ▸ hn
  have hboth : Meets (step env config)
      (OnSteps k fun b e => WritesSucceed e ∧ NamesApart env config b) init es :=
    (hm.and hapart).mono fun _ _ h hk b be hb he => ⟨h.1 hk b be hb he, h.2 hk b be hb he⟩
  exact batch_run_invariant (fun _ _ _ _ hs => .start hs)
    (fun _ _ _ _ _ hI hok hm => hI.step hok.2 hok.1 hm) hboth hr b hb

/-- A safe call keeps the images of its successes. -/
theorem imagesKept_of_run (hr : run (step env config) init es = some s) {b : Batch}
    (hb : s.locals k = some b) {results : List DownloadResult} (hph : b.phase = .returned results)
    (hsafe : Safe env config b) : ImagesKept b results := by
  intro r hmem path size hash elapsed hsucc
  obtain ⟨hcol, hasm⟩ := collected_of_reaches ⟨es, hr⟩ hb
  rcases hasm.mem_results hcol (by rw [hph]; rfl) hmem with ⟨msg, hfail⟩ | ⟨d, heq⟩
  · rw [hfail] at hsucc
    cases hsucc
  · -- a success comes from the map, and so from a task that returned it
    unfold assembleOne at heq
    split at heq
    case h_2 =>
      rw [heq] at hsucc
      cases hsucc
    case h_1 result hmap =>
      obtain ⟨j, t, ht, -, hs⟩ := (hcol.map r.url _).1 hmap
      obtain ⟨outcome, ho⟩ := hcol.own j t _ ht hs
      obtain ⟨hurl, hres⟩ := Prod.mk.inj ho
      obtain rfl : outcome = .success path size hash elapsed := by
        rw [heq, hres] at hsucc
        exact hsucc
      rw [ho] at hs
      obtain ⟨hdir, hname⟩ := (hsafe.storing j t ht).returned _ hs path size hash elapsed rfl
      obtain ⟨bytes, hbody, -⟩ := Option.bind_eq_some_iff.1 hname
      exact ⟨j, t, bytes, ht, hurl.symm, hbody, hdir.trans (hcol.outputDir_eq ht),
        hsafe.images j t _ bytes ht (.returned hs ⟨_, _, _, _, rfl⟩) hbody hname⟩

/-- If all writes of a call succeed and the names of its images are apart, every success
it returns names a file with the image of its URL. -/
theorem images_kept (hr : run (step env config) init es = some s)
    (hm : Meets (step env config) (OnSteps k fun _ e => WritesSucceed e) init es) {b : Batch}
    (hb : s.locals k = some b) {results : List DownloadResult} (hph : b.phase = .returned results)
    (hn : NamesApart env config b) : ImagesKept b results :=
  imagesKept_of_run hr hb hph (safe_of_run hr hm hb hn)

/-- Three URLs at two hosts, two of them with the same last segment. -/
def twoHosts : Env :=
  Env.ofTable [("http://a/p.jpg", ⟨some "http", some ⟨"a", none⟩, some "/p.jpg"⟩),
    ("http://b/p.jpg", ⟨some "http", some ⟨"b", none⟩, some "/p.jpg"⟩),
    ("http://b/q.jpg", ⟨some "http", some ⟨"b", none⟩, some "/q.jpg"⟩)]

/-- Two tasks store their images one after the other. -/
def storeRun (url url' : String) : List (ℕ × DownloaderEvent) :=
  (0, .call [url, url'] "out" (.ok ())) :: taskSteps 0 (toWritten [1] ++ [.written 3 ""]) ++
    taskSteps 1 (toWritten [2] ++ [.written 4 ""]) ++
    [(0, .batch (.join 0)), (0, .batch (.join 1)), (0, .batch (.drained (fun _ => 9) 9))]

/-- The event is not a write that fails. -/
def writes (_ : State) : ℕ × DownloaderEvent → Bool
  | (_, .batch (.task _ (.perform (.failed _ _)))) => false
  | (_, .batch (.performSummary (.failed _ _))) => false
  | _ => true

theorem writesSucceed_of_writes (s : State) (e : ℕ × DownloaderEvent) (h : writes s e = true) :
    OnSteps k (fun _ e => WritesSucceed e) s e := by
  rintro - b be - he
  obtain ⟨i, de⟩ := e
  obtain rfl : de = .batch be := he
  cases be with
  | task j te =>
    cases te with
    | perform w =>
      cases w with
      | ok => rfl
      | failed => cases h
    | _ => trivial
  | performSummary w =>
    cases w with
    | ok => rfl
    | failed => cases h
  | _ => trivial

/-- The URL of a task of the call 0, its image name and its image. -/
def imageOf (j : ℕ) (s : State) : Option (String × Option String × Option Bytes) :=
  (s.locals 0).bind fun b => (b.tasks j).map fun t => (t.url, t.imageName twoHosts {}, t.body)

theorem imageOf_eq_some {j : ℕ} {x : String × Option String × Option Bytes}
    (h : imageOf j s = some x) {b : Batch} (hb : s.locals 0 = some b) {t : Task}
    (ht : b.tasks j = some t) : t.url = x.1 ∧ t.imageName twoHosts {} = x.2.1 ∧ t.body = x.2.2 := by
  rw [imageOf, hb, Option.bind_some, ht] at h
  obtain rfl := Option.some.inj h
  exact ⟨rfl, rfl, rfl⟩

theorem images_kept_storeRun : ∃ s b, run (step twoHosts {}) init
      (storeRun "http://a/p.jpg" "http://b/q.jpg") = some s ∧ s.locals 0 = some b ∧
    ImagesKept b [⟨"http://a/p.jpg", .success ⟨"out", "p.jpg"⟩ 1 none 3⟩,
      ⟨"http://b/q.jpg", .success ⟨"out", "q.jpg"⟩ 1 none 4⟩] := by
  have hphase : (run (step twoHosts {}) init
      (storeRun "http://a/p.jpg" "http://b/q.jpg")).map phaseOf =
      some (some (.returned [⟨"http://a/p.jpg", .success ⟨"out", "p.jpg"⟩ 1 none 3⟩,
        ⟨"http://b/q.jpg", .success ⟨"out", "q.jpg"⟩ 1 none 4⟩])) := by decide +kernel
  have hurls : (run (step twoHosts {}) init (storeRun "http://a/p.jpg" "http://b/q.jpg")).map
      (fun s => (s.locals 0).map Batch.urls) =
      some (some ["http://a/p.jpg", "http://b/q.jpg"]) := by decide +kernel
  have h0 : (run (step twoHosts {}) init (storeRun "http://a/p.jpg" "http://b/q.jpg")).map
      (imageOf 0) = some (some ("http://a/p.jpg", some "p.jpg", some [1])) := by decide +kernel
  have h1 : (run (step twoHosts {}) init (storeRun "http://a/p.jpg" "http://b/q.jpg")).map
      (imageOf 1) = some (some ("http://b/q.jpg", some "q.jpg", some [2])) := by decide +kernel
  have hm : Meets (step twoHosts {}) (OnSteps 0 fun _ e => WritesSucceed e) init
      (storeRun "http://a/p.jpg" "http://b/q.jpg") :=
    .of_checks writesSucceed_of_writes (by decide +kernel : checks _ writes init _ = true)
  obtain ⟨s, hr, hph⟩ := Option.map_eq_some_iff.1 hphase
  rw [hr, Option.map_some, Option.some.injEq] at hurls h0 h1
  obtain ⟨b, hb, hph⟩ := Option.map_eq_some_iff.1 hph
  rw [hb, Option.map_some, Option.some.injEq] at hurls
  have two : ∀ j t, b.tasks j = some t → j = 0 ∨ j = 1 := by
    intro j t ht
    have hlt := (collected_of_reaches ⟨_, hr⟩ hb).1.lt_length ht
    rw [hurls] at hlt
    have : (dedup ["http://a/p.jpg", "http://b/q.jpg"]).length = 2 := by decide
    omega
  have hn : NamesApart twoHosts {} b := by
    refine ⟨fun i j t u name ht hu hname hname' => ?_, fun hw => (nomatch hw),
      fun hw => (nomatch hw)⟩
    rcases two i t ht with rfl | rfl <;> rcases two j u hu with rfl | rfl
    · rw [Option.some.inj (ht.symm.trans hu)]
    · rw [(imageOf_eq_some h0 hb ht).2.1] at hname
      rw [(imageOf_eq_some h1 hb hu).2.1, ← hname] at hname'
      exact absurd hname' (by decide)
    · rw [(imageOf_eq_some h1 hb ht).2.1] at hname
      rw [(imageOf_eq_some h0 hb hu).2.1, ← hname] at hname'
      exact absurd hname' (by decide)
    · rw [Option.some.inj (ht.symm.trans hu)]
  exact ⟨s, b, hr, hb, images_kept hr hm hb hph hn⟩

/-- The content of a file of the call 0. -/
def contentOf (name : String) (s : State) : Option Bytes :=
  (s.locals 0).bind fun b => (b.scope.files name).map File.content

/-- The second image replaces the first one, and both URLs are reported as stored. -/
theorem image_overwritten : ∃ s b, run (step twoHosts {}) init
      (storeRun "http://a/p.jpg" "http://b/p.jpg") = some s ∧ s.locals 0 = some b ∧
    Meets (step twoHosts {}) (OnSteps 0 fun _ e => WritesSucceed e) init
      (storeRun "http://a/p.jpg" "http://b/p.jpg") ∧
    b.phase = .returned [⟨"http://a/p.jpg", .success ⟨"out", "p.jpg"⟩ 1 none 3⟩,
      ⟨"http://b/p.jpg", .success ⟨"out", "p.jpg"⟩ 1 none 4⟩] ∧
    ¬ImagesKept b [⟨"http://a/p.jpg", .success ⟨"out", "p.jpg"⟩ 1 none 3⟩,
      ⟨"http://b/p.jpg", .success ⟨"out", "p.jpg"⟩ 1 none 4⟩] := by
  have hphase : (run (step twoHosts {}) init
      (storeRun "http://a/p.jpg" "http://b/p.jpg")).map phaseOf =
      some (some (.returned [⟨"http://a/p.jpg", .success ⟨"out", "p.jpg"⟩ 1 none 3⟩,
        ⟨"http://b/p.jpg", .success ⟨"out", "p.jpg"⟩ 1 none 4⟩])) := by decide +kernel
  have h0 : (run (step twoHosts {}) init (storeRun "http://a/p.jpg" "http://b/p.jpg")).map
      (imageOf 0) = some (some ("http://a/p.jpg", some "p.jpg", some [1])) := by decide +kernel
  have hcontent : (run (step twoHosts {}) init
      (storeRun "http://a/p.jpg" "http://b/p.jpg")).map (contentOf "p.jpg") =
      some (some [2]) := by decide +kernel
  have hm : Meets (step twoHosts {}) (OnSteps 0 fun _ e => WritesSucceed e) init
      (storeRun "http://a/p.jpg" "http://b/p.jpg") :=
    .of_checks writesSucceed_of_writes (by decide +kernel : checks _ writes init _ = true)
  obtain ⟨s, hr, hph⟩ := Option.map_eq_some_iff.1 hphase
  rw [hr, Option.map_some, Option.some.injEq] at h0 hcontent
  obtain ⟨b, hb, hph⟩ := Option.map_eq_some_iff.1 hph
  refine ⟨s, b, hr, hb, hm, hph, fun hkept => ?_⟩
  obtain ⟨j, t, bytes, ht, hurl, hbody, -, f, hf, rfl⟩ :=
    hkept _ List.mem_cons_self _ _ _ _ rfl
  -- the task of the first URL is the first one, with the image `[1]`
  obtain ⟨t₀, ht₀⟩ : ∃ t₀, b.tasks 0 = some t₀ := by
    rw [imageOf, hb, Option.bind_some] at h0
    obtain ⟨t₀, ht₀, -⟩ := Option.map_eq_some_iff.1 h0
    exact ⟨t₀, ht₀⟩
  obtain ⟨hurl₀, -, hbody₀⟩ := imageOf_eq_some h0 hb ht₀
  have hj := (collected_of_reaches ⟨_, hr⟩ hb).1.unique ht ht₀ (hurl.trans hurl₀.symm)
  rw [hj, ht₀] at ht
  obtain rfl := Option.some.inj ht
  rw [contentOf, hb, Option.bind_some, hf, Option.map_some] at hcontent
  rw [hbody₀, hcontent] at hbody
  exact absurd hbody (by decide)

end Downloader

end Imgdl
