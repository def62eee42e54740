import Imgdl.GeneratedNames
import Imgdl.Overwrites

/-!
# Names that keep the images apart

Under `NamingStrategy.sequential` and `NamingStrategy.contentHash` the name of an image is a
stem of digits and an extension (`Numbered`). It has one dot, where the name of a sidecar has
two, and the stem is not `summary`. The stem determines the position of the URL, or the
first 16 bytes of the hash of the image, so the names of a batch are apart
(`names_apart`) and its images are kept (`distinct_names`).
-/

set_option linter.unusedSectionVars false

namespace Imgdl

open Transition

variable {sha256 : Bytes → Bytes}

/-! ## Names with one dot -/

/-- A stem of hexadecimal digits, a dot and an extension. -/
structure Numbered (stem ext : List Char) : Prop where
  stem : ∀ c ∈ stem, c.isHexDigit = true
  ext : IsExtension ext

namespace Numbered

variable {stem stem' ext ext' : List Char}

theorem dot_not_mem (h : Numbered stem ext) : '.' ∉ stem :=
  fun hdot => absurd (h.stem _ hdot) (by decide)

/-- The last dot separates the extension. -/
theorem stem_eq (hext : '.' ∉ ext) (hext' : '.' ∉ ext')
    (heq : stem ++ '.' :: ext = stem' ++ '.' :: ext') : stem = stem' := by
  have he : ext = ext' := by
    rw [← rsplitHead_append hext stem, heq, rsplitHead_append hext' stem']
  rw [he] at heq
  exact List.append_cancel_right heq

/-- A name with one dot is not that of a sidecar. -/
theorem ne_sidecarName (h : Numbered stem ext) (name : List Char) (hname : '.' ∈ name) :
    String.ofList (stem ++ '.' :: ext) ≠ sidecarName (String.ofList name) := by
  intro heq
  have hlist := congrArg String.toList heq
  rw [sidecarName, String.toList_append, String.toList_ofList, String.toList_ofList] at hlist
  have hstem := stem_eq h.ext.dot_not_mem (by decide : '.' ∉ "json".toList) hlist
  exact h.dot_not_mem (hstem ▸ hname)

/-- The stem `summary` is not made of digits. -/
theorem ne_summaryName (h : Numbered stem ext) :
    String.ofList (stem ++ '.' :: ext) ≠ summaryName := by
  intro heq
  have hlist := congrArg String.toList heq
  rw [String.toList_ofList] at hlist
  have hsummary : summaryName.toList = "summary".toList ++ '.' :: "json".toList := by decide
  have hstem := stem_eq h.ext.dot_not_mem (by decide) (hlist.trans hsummary)
  have hs : 's' ∈ stem := by
    rw [hstem]
    decide
  exact absurd (h.stem _ hs) (by decide)

end Numbered

/-! ## Stems -/

theorem length_paddedIndex_le {index : ℕ} (h : index < 2 ^ 64) :
    (paddedIndex index).length ≤ 20 := by
  have hdigits : (Nat.toDigits 10 index).length ≤ 20 :=
    (Nat.length_toDigits_le_iff (by decide) (by decide)).2 (by omega)
  rw [paddedIndex, List.length_leftpad]
  omega

/-- The index can be read off its padded digits. -/
theorem paddedIndex_injective {i j : ℕ} (h : paddedIndex i = paddedIndex j) : i = j := by
  have value : ∀ n, Nat.ofDigitChars 10 (paddedIndex n) 0 = n := fun n => by
    rw [paddedIndex, List.leftpad, Nat.ofDigitChars_append, Nat.ofDigitChars_replicate_zero,
      Nat.mul_zero, Nat.ofDigitChars_ten_toDigits]
  rw [← value i, h, value j]

theorem hexByte_injective {b b' : UInt8} (h : hexByte b = hexByte b') : b = b' := by
  have digit : ∀ m < 16, ∀ n < 16, Nat.digitChar m = Nat.digitChar n → m = n := by decide
  have hb := b.toNat_lt
  have hb' := b'.toNat_lt
  simp only [hexByte, List.cons.injEq, and_true] at h
  have hhigh := digit _ (by omega) _ (by omega) h.1
  have hlow := digit _ (by omega) _ (by omega) h.2
  exact UInt8.toNat_inj.1 (by omega)

theorem flatMap_hexByte_injective : ∀ {s s' : Bytes}, s.flatMap hexByte = s'.flatMap hexByte →
    s = s'
  | [], [], _ => rfl
  | [], _ :: _, h => (nomatch h)
  | _ :: _, [], h => (nomatch h)
  | b :: s, b' :: s', h => by
    rw [List.flatMap_cons, List.flatMap_cons] at h
    obtain ⟨hb, hs⟩ := List.append_inj h rfl
    rw [hexByte_injective hb, flatMap_hexByte_injective hs]

/-- What a numbered name counts on : the position of the URL, or the hash of the image. -/
def numberedStem (sha256 : Bytes → Bytes) (index : ℕ) (bytes : Bytes) :
    NamingStrategy → List Char
  | .sequential => paddedIndex index
  | _ => hexPrefix sha256 16 bytes

/-- The names that are numbered. -/
def NamingStrategy.numbers (strategy : NamingStrategy) : Prop :=
  strategy = .sequential ∨ strategy = .contentHash

/-- A numbered name is short, and stays as it is. -/
theorem generateFilename_numbered (overflowChecks : Bool) (sha256 : Bytes → Bytes)
    {strategy : NamingStrategy} (hstrat : strategy.numbers) (url : String) {index : ℕ}
    (hindex : index < 2 ^ 64) (bytes : Bytes) :
    ∃ ext, Numbered (numberedStem sha256 index bytes strategy) ext ∧
      rawName sha256 url index bytes strategy =
        some (numberedStem sha256 index bytes strategy ++ '.' :: ext) ∧
      generateFilename overflowChecks sha256 url index bytes strategy =
        some (String.ofList (numberedStem sha256 index bytes strategy ++ '.' :: ext)) := by
  obtain ⟨ext, hnum, hraw, hlen⟩ : ∃ ext, Numbered (numberedStem sha256 index bytes strategy) ext ∧
      rawName sha256 url index bytes strategy =
        some (numberedStem sha256 index bytes strategy ++ '.' :: ext) ∧
      (numberedStem sha256 index bytes strategy).length ≤ 32 := by
    rcases hstrat with rfl | rfl
    · obtain ⟨ext, hext, heq⟩ := sequentialName_spec index url bytes
      have hle := length_paddedIndex_le hindex
      exact ⟨ext, ⟨isHexDigit_paddedIndex, hext⟩, heq, hle.trans (by decide)⟩
    · obtain ⟨ext, hext, heq⟩ := contentHashName_spec sha256 bytes url
      exact ⟨ext, ⟨isHexDigit_hexPrefix, hext⟩, heq, length_hexPrefix_le 16 bytes⟩
  have hext := hnum.ext.length_le
  refine ⟨ext, hnum, hraw, ?_⟩
  rw [generateFilename_eq, hraw, Option.bind_some, truncateFilename_of_le, Option.map_some]
  rw [List.length_append, List.length_cons]
  omega

/-! ## The names of a batch -/

variable {env : Env} {config : Config} {b : Batch}

/-- The first 16 bytes of the hash tell the images of a batch apart. -/
def HashesApart (env : Env) (b : Batch) : Prop :=
  ∀ i j t u bytes bytes', b.tasks i = some t → b.tasks j = some u → t.body = some bytes →
    u.body = some bytes' → (env.sha256 bytes).take 16 = (env.sha256 bytes').take 16 →
    bytes = bytes'

/-- The name of an image of a batch is numbered. -/
theorem Collected.imageName_numbered (env : Env) (h : Collected b)
    (hstrat : config.namingStrategy.numbers) (hurls : b.urls.length < 2 ^ 64) {j : ℕ} {t : Task}
    {bytes : Bytes} (ht : b.tasks j = some t) (hbody : t.body = some bytes) :
    t.firstIndex = b.urls.idxOf t.url ∧ t.url ∈ b.urls ∧
      ∃ ext, Numbered (numberedStem env.sha256 t.firstIndex bytes config.namingStrategy) ext ∧
        rawName env.sha256 t.url t.firstIndex bytes config.namingStrategy =
          some (numberedStem env.sha256 t.firstIndex bytes config.namingStrategy ++ '.' :: ext) ∧
        t.imageName env config = some (String.ofList
          (numberedStem env.sha256 t.firstIndex bytes config.namingStrategy ++ '.' :: ext)) := by
  obtain ⟨t₀, ht₀, hurl, hindex, -⟩ := h.spawned j t ht
  obtain ⟨hmem, heq⟩ := spawnTasks_eq_some ht₀
  have hfirst : t.firstIndex = b.urls.idxOf t.url := by
    rw [hindex, hurl, heq]
    rfl
  have hmem' : t.url ∈ b.urls := hurl ▸ hmem
  have hlt : t.firstIndex < 2 ^ 64 := by
    have h := List.idxOf_lt_length_iff.2 hmem'
    omega
  obtain ⟨ext, hnum, hraw, hname⟩ :=
    generateFilename_numbered env.overflowChecks env.sha256 hstrat t.url hlt bytes
  exact ⟨hfirst, hmem', ext, hnum, hraw, by rw [Task.imageName, hbody]; exact hname⟩

/-- The names of a batch of numbered images. -/
structure DistinctNames (env : Env) (config : Config) (b : Batch) : Prop where
  untruncated : ∀ j t bytes, b.tasks j = some t → t.body = some bytes → ∃ raw,
    rawName env.sha256 t.url t.firstIndex bytes config.namingStrategy = some raw ∧
      t.imageName env config = some (String.ofList raw)
  sidecar : ∀ i j t u name name', b.tasks i = some t → b.tasks j = some u →
    t.imageName env config = some name → u.imageName env config = some name' →
    name ≠ sidecarName name'
  summary : ∀ j t, b.tasks j = some t → t.imageName env config ≠ some summaryName
  sequential : config.namingStrategy = .sequential → ∀ j t name, b.tasks j = some t →
    t.imageName env config = some name → ∃ ext, '.' ∉ ext ∧
      name = String.ofList (paddedIndex (b.urls.idxOf t.url) ++ '.' :: ext)
  distinct : config.namingStrategy = .sequential → ∀ i j t u name, b.tasks i = some t →
    b.tasks j = some u → t.imageName env config = some name →
    u.imageName env config = some name → t.url = u.url

/-- A task with a name has an image. -/
theorem Task.body_of_imageName {t : Task} {name : String}
    (h : t.imageName env config = some name) : ∃ bytes, t.body = some bytes := by
  obtain ⟨bytes, hbody, -⟩ := Option.bind_eq_some_iff.1 h
  exact ⟨bytes, hbody⟩

theorem Collected.distinctNames (env : Env) (h : Collected b)
    (hstrat : config.namingStrategy.numbers) (hurls : b.urls.length < 2 ^ 64) :
    DistinctNames env config b := by
  have sequential : config.namingStrategy = .sequential → ∀ j t name, b.tasks j = some t →
      t.imageName env config = some name → t.url ∈ b.urls ∧ ∃ ext, '.' ∉ ext ∧
        name = String.ofList (paddedIndex (b.urls.idxOf t.url) ++ '.' :: ext) := by
    intro hseq j t name ht hname
    obtain ⟨bytes, hbody⟩ := Task.body_of_imageName hname
    obtain ⟨hfirst, hmem, ext, hnum, -, heq⟩ :=
      h.imageName_numbered env hstrat hurls ht hbody
    refine ⟨hmem, ext, hnum.ext.dot_not_mem, Option.some.inj (hname.symm.trans ?_)⟩
    rw [heq, hseq, hfirst]
    rfl
  refine ⟨fun j t bytes ht hbody => ?_, fun i j t u name name' ht hu hname hname' heq => ?_,
    fun j t ht hname => ?_, fun hseq j t name ht hname => (sequential hseq j t name ht hname).2,
    fun hseq i j t u name ht hu hname hname' => ?_⟩
  · obtain ⟨-, -, ext, -, hraw, heq⟩ :=
      h.imageName_numbered env hstrat hurls ht hbody
    exact ⟨_, hraw, heq⟩
  · obtain ⟨bytes, hbody⟩ := Task.body_of_imageName hname
    obtain ⟨bytes', hbody'⟩ := Task.body_of_imageName hname'
    obtain ⟨-, -, ext, hnum, -, ht'⟩ :=
      h.imageName_numbered env hstrat hurls ht hbody
    obtain ⟨-, -, ext', -, -, hu'⟩ :=
      h.imageName_numbered env hstrat hurls hu hbody'
    obtain rfl := Option.some.inj (hname.symm.trans ht')
    obtain rfl := Option.some.inj (hname'.symm.trans hu')
    exact hnum.ne_sidecarName _ (by simp) heq
  · obtain ⟨bytes, hbody⟩ := Task.body_of_imageName hname
    obtain ⟨-, -, ext, hnum, -, ht'⟩ :=
      h.imageName_numbered env hstrat hurls ht hbody
    exact hnum.ne_summaryName (Option.some.inj (ht'.symm.trans hname))
  · obtain ⟨hmem, ext, hext, rfl⟩ := sequential hseq i t name ht hname
    obtain ⟨-, ext', hext', heq⟩ := sequential hseq j u _ hu hname'
    have hstem := Numbered.stem_eq hext hext' (String.ofList_inj.1 heq)
    exact (List.idxOf_inj hmem).1 (paddedIndex_injective hstem)

/-- Equal names belong to equal images. -/
theorem Collected.names_apart (h : Collected b) (hstrat : config.namingStrategy.numbers)
    (hurls : b.urls.length < 2 ^ 64)
    (hhash : config.namingStrategy = .contentHash → HashesApart env b) :
    NamesApart env config b := by
  have hnames := h.distinctNames env hstrat hurls
  refine ⟨fun i j t u name ht hu hname hname' => ?_,
    fun _ i j t u name name' => hnames.sidecar i j t u name name', fun _ => hnames.summary⟩
  rcases hstrat with hseq | hcontent
  · have hij := h.unique ht hu (hnames.distinct hseq i j t u name ht hu hname hname')
    rw [hij, hu] at ht
    rw [Option.some.inj ht]
  · obtain ⟨bytes, hbody⟩ := Task.body_of_imageName hname
    obtain ⟨bytes', hbody'⟩ := Task.body_of_imageName hname'
    obtain ⟨-, -, ext, hnum, -, ht'⟩ :=
      h.imageName_numbered env (Or.inr hcontent) hurls ht hbody
    obtain ⟨-, -, ext', hnum', -, hu'⟩ :=
      h.imageName_numbered env (Or.inr hcontent) hurls hu hbody'
    have heq := Option.some.inj (ht'.symm.trans (hname.trans (hname'.symm.trans hu')))
    have hstem := Numbered.stem_eq hnum.ext.dot_not_mem hnum'.ext.dot_not_mem
      (String.ofList_inj.1 heq)
    rw [hcontent] at hstem
    rw [hbody, hbody', hhash hcontent i j t u bytes bytes' ht hu hbody hbody'
      (flatMap_hexByte_injective hstem)]

namespace Downloader

variable {s : State} {es : List (ℕ × DownloaderEvent)} {k : ℕ}

/-- Under sequential naming, and under naming by content if the hashes tell the images
apart, every success names a file with the image of its URL. -/
theorem distinct_names (hr : run (step env config) init es = some s)
    (hm : Meets (step env config) (OnSteps k fun _ e => WritesSucceed e) init es) {b : Batch}
    (hb : s.locals k = some b) {results : List DownloadResult} (hph : b.phase = .returned results)
    (hstrat : config.namingStrategy = .sequential ∨ config.namingStrategy = .contentHash)
    (hurls : b.urls.length < 2 ^ 64)
    (hhash : config.namingStrategy = .contentHash → HashesApart env b) :
    ImagesKept b results ∧ DistinctNames env config b := by
  obtain ⟨hcol, -⟩ := collected_of_reaches ⟨es, hr⟩ hb
  have hn := hcol.names_apart hstrat hurls hhash
  exact ⟨imagesKept_of_run hr hb hph (safe_of_run hr hm hb hn), hcol.distinctNames env hstrat hurls⟩

theorem distinct_names_storeRun : ∃ s b,
    run (step twoHosts { namingStrategy := .sequential }) init
      (storeRun "http://a/p.jpg" "http://b/p.jpg") = some s ∧ s.locals 0 = some b ∧
    ImagesKept b [⟨"http://a/p.jpg", .success ⟨"out", "000.jpg"⟩ 1 none 3⟩,
      ⟨"http://b/p.jpg", .success ⟨"out", "001.jpg"⟩ 1 none 4⟩] ∧
    DistinctNames twoHosts { namingStrategy := .sequential } b := by
  have hphase : (run (step twoHosts { namingStrategy := .sequential }) init
      (storeRun "http://a/p.jpg" "http://b/p.jpg")).map phaseOf =
      some (some (.returned [⟨"http://a/p.jpg", .success ⟨"out", "000.jpg"⟩ 1 none 3⟩,
        ⟨"http://b/p.jpg", .success ⟨"out", "001.jpg"⟩ 1 none 4⟩])) := by decide +kernel
  have hurls : (run (step twoHosts { namingStrategy := .sequential }) init
      (storeRun "http://a/p.jpg" "http://b/p.jpg")).map (fun s => (s.locals 0).map Batch.urls) =
      some (some ["http://a/p.jpg", "http://b/p.jpg"]) := by decide +kernel
  have hm : Meets (step twoHosts { namingStrategy := .sequential })
      (OnSteps 0 fun _ e => WritesSucceed e) init (storeRun "http://a/p.jpg" "http://b/p.jpg") :=
    .of_checks writesSucceed_of_writes (by decide +kernel : checks _ writes init _ = true)
  obtain ⟨s, hr, hph⟩ := Option.map_eq_some_iff.1 hphase
  rw [hr, Option.map_some, Option.some.injEq] at hurls
  obtain ⟨b, hb, hph⟩ := Option.map_eq_some_iff.1 hph
  rw [hb, Option.map_some, Option.some.injEq] at hurls
  exact ⟨s, b, hr, hb, distinct_names hr hm hb hph (Or.inl rfl) (by rw [hurls]; decide)
    fun h => (nomatch h)⟩

end Downloader

end Imgdl
