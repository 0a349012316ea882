import WazAISentinel.VulnerabilityScanner.CacheLRU

/-!
# The translations of packages

The feed manager keeps the translations of the feed in a Level 2 cache and searches it with regular
expressions; the package scanner keeps the translations it found in a Level 1 cache, under the
platform, the vendor and the name joined by underscores. Scans and reloads of the feed hold one
mutex, so each is one step. `std::regex` and `std::regex_search` are parameters of the model
(`RegexEngine`).

A Level 1 hit uses the translations of the scan that stored them. They are those of the Level 2
cache as long as packages with one joined key are one package for the search and no reload writes an
entry that matters to a stored package (`Steady`).
-/

namespace WazAISentinel.VulnerabilityScanner

open Foundations List Option

/-- Regular expressions of type `ρ`: the constructor, which throws on an invalid pattern, and the
search, with the first capture group of a match (empty if it has none). -/
structure RegexEngine (ρ : Type) where
  compile : List Char → Option ρ
  search : ρ → List Char → Option (List Char)

/-! ## The data -/

/-- `PackageData`. -/
structure PackageData where
  name : List Char
  vendor : List Char
  format : List Char
  version : List Char
  deriving DecidableEq

/-- `TranslatedData`. -/
structure TranslatedData where
  translatedProduct : List Char
  translatedVendor : List Char
  translatedVersion : List Char
  deriving DecidableEq, Repr

/-- `Translation`. -/
structure Translation (ρ : Type) where
  productRegex : Option ρ
  vendorRegex : Option ρ
  versionRegex : Option ρ
  translation : List TranslatedData
  target : List (List Char)
  deriving DecidableEq

/-- `SourceFields` of the feed. -/
structure SourceFields where
  vendor : Option (List Char)
  product : Option (List Char)
  version : Option (List Char)

/-- `TranslationFields` of the feed. -/
structure TranslationFields where
  vendor : Option (List Char)
  product : Option (List Char)
  version : Option (List Char)

/-- `TranslationEntry` of the feed. -/
structure TranslationEntry where
  source : SourceFields
  target : List (List Char)
  translation : List TranslationFields

/-- The translations column of the feed in the order of its keys; `none` for data that is not a
valid entry. -/
abbrev TranslationsColumn := List (List Char × Option TranslationEntry)

/-! ## The Level 2 cache -/

section Level2

variable {ρ : Type} (engine : RegexEngine ρ)

/-- `createRegex`; the outer `none` is the exception of an invalid pattern. -/
def createRegex : Option (List Char) → Option (Option ρ)
  | none => some none
  | some [] => some none
  | some pattern => (engine.compile pattern).map some

/-- The translation of an entry of the feed. -/
def translationOf (queryData : TranslationEntry) : Option (Translation ρ) :=
  (createRegex engine queryData.source.product).bind fun productRegex =>
  (createRegex engine queryData.source.vendor).bind fun vendorRegex =>
  (createRegex engine queryData.source.version).map fun versionRegex =>
    { productRegex := productRegex
      vendorRegex := vendorRegex
      versionRegex := versionRegex
      translation := queryData.translation.map fun translationData =>
        { translatedProduct := translationData.product.getD []
          translatedVendor := translationData.vendor.getD []
          translatedVersion := translationData.version.getD [] }
      target := queryData.target }

/-- `fillL2CacheTranslations`. What it throws is caught and logged by the caller, and the entries
inserted before stay in the cache. -/
def fillL2CacheTranslations :
    LRUCache (Translation ρ) → TranslationsColumn → Option (LRUCache (Translation ρ))
  | l2, [] => some l2
  | l2, (key, value) :: rest =>
    if l2.isFull then some l2
    else
      match value.bind (translationOf engine) with
      | none => some l2
      | some translationQuery =>
        (l2.insertKey key translationQuery).bind fun l2 => fillL2CacheTranslations l2 rest

/-- The conditions on an entry of the Level 2 cache. -/
def Translation.applies (cacheData : Translation ρ) (package : PackageData)
    (osPlatform : List Char) : Bool :=
  (cacheData.target.any fun target => target = osPlatform) &&
    cacheData.productRegex.all (fun regex => (engine.search regex package.name).isSome) &&
    cacheData.vendorRegex.all fun regex => (engine.search regex package.vendor).isSome

/-- The translations of an entry. The version expression is searched in the name of the package. -/
def Translation.results (cacheData : Translation ρ) (package : PackageData) : List TranslatedData :=
  cacheData.translation.map fun translatedPackage =>
    { translatedProduct := translatedPackage.translatedProduct
      translatedVendor := translatedPackage.translatedVendor
      translatedVersion :=
        match cacheData.versionRegex.bind fun regex => engine.search regex package.name with
        | some found => found
        | none => translatedPackage.translatedVersion }

/-- The handler returns false to end the search behind the first entry that applies, but `forEach`
takes a handler without a result and goes on, so all entries that apply contribute. -/
def getTranslationFromL2 (l2 : LRUCache (Translation ρ)) (package : PackageData)
    (osPlatform : List Char) : List TranslatedData :=
  l2.map.entries.flatMap fun e =>
    if e.2.applies engine package osPlatform then e.2.results engine package else []

end Level2

/-! ## The scan -/

/-- The package with what a translation replaces. -/
def translatedPackage (packageToTranslate : PackageData) (translation : TranslatedData) :
    PackageData where
  name := if translation.translatedProduct ≠ [] then translation.translatedProduct
    else packageToTranslate.name
  vendor := if translation.translatedVendor ≠ [] then translation.translatedVendor
    else packageToTranslate.vendor
  format := packageToTranslate.format
  version := if translation.translatedVersion ≠ [] then translation.translatedVersion
    else packageToTranslate.version

/-- The packages that were scanned, and whether all of them were. `getVulnerabilitiesCandidates`
throws for an empty name of the package or of the CNA, and whenever the search of the candidates
does (`completes`). -/
def initiateScans (cnaName : List Char) (completes : PackageData → Bool)
    (packageToTranslate : PackageData) : List TranslatedData → List PackageData × Bool
  | [] => ([], true)
  | translation :: translations =>
    let package := translatedPackage packageToTranslate translation
    if package.name = [] ∨ cnaName = [] ∨ completes package = false then ([package], false)
    else
      let rest := initiateScans cnaName completes packageToTranslate translations
      (package :: rest.1, rest.2)

/-- `L1_CACHE_SIZE`. -/
def l1CacheSize : Nat := 2048

/-- The package scanner and its feed manager. -/
structure Scanner (ρ : Type) where
  l1 : LRUCache (List TranslatedData)
  l2 : LRUCache (Translation ρ)

/-- `cacheKey`. -/
def cacheKey (osPlatform : List Char) (package : PackageData) : List Char :=
  osPlatform ++ "_".toList ++ package.vendor ++ "_".toList ++ package.name

/-- What a scan did: the packages scanned, and the result of the function if it returned. -/
structure ScanResult where
  scanned : List PackageData
  returned : Option Bool

/-- `scanPackageTranslation`. -/
def scanPackageTranslation {ρ : Type} (engine : RegexEngine ρ) (cnaName : List Char)
    (completes : PackageData → Bool) (osPlatform : List Char) (packageToTranslate : PackageData)
    (s : Scanner ρ) : Option (Scanner ρ × ScanResult) :=
  let key := cacheKey osPlatform packageToTranslate
  if s.l1.isHit key then
    let read := s.l1.getValue key
    let scans := initiateScans cnaName completes packageToTranslate (read.1.getD [])
    some ({ s with l1 := read.2 }, ⟨scans.1, if scans.2 then some true else none⟩)
  else
    let translations := getTranslationFromL2 engine s.l2 packageToTranslate osPlatform
    if translations ≠ [] then
      let scans := initiateScans cnaName completes packageToTranslate translations
      if scans.2 then
        (s.l1.insertKey key translations).map fun l1 => ({ s with l1 := l1 }, ⟨scans.1, some true⟩)
      else some (s, ⟨scans.1, none⟩)
    else some (s, ⟨[], some false⟩)

/-! ## Scans and reloads -/

section System

variable {ρ : Type} (engine : RegexEngine ρ)

/-- A scan that did not hit, with the Level 2 cache it found. -/
structure Origin (ρ : Type) where
  osPlatform : List Char
  package : PackageData
  l2 : LRUCache (Translation ρ)

/-- The translations for the scan. -/
def Origin.answer (o : Origin ρ) : List TranslatedData :=
  getTranslationFromL2 engine o.l2 o.package o.osPlatform

/-- The scanner, with the last scan under each key that did not hit. -/
structure Tracked (ρ : Type) where
  scanner : Scanner ρ
  origin : List Char → Option (Origin ρ)

/-- A scan, or a reload, which comes to the translations only if the vendor map, the OS CPE rules
and the CNA mappings are found and valid (`globalMaps`). -/
inductive FeedEvent where
  | scan (cnaName : List Char) (completes : PackageData → Bool) (osPlatform : List Char)
      (package : PackageData)
  | reload (globalMaps : Bool) (translations : TranslationsColumn)

/-- One event. -/
def Tracked.step (s : Tracked ρ) : FeedEvent → Option (Tracked ρ)
  | .scan cnaName completes osPlatform package =>
    (scanPackageTranslation engine cnaName completes osPlatform package s.scanner).map fun result =>
      { scanner := result.1
        origin :=
          if s.scanner.l1.isHit (cacheKey osPlatform package) then s.origin
          else Function.update s.origin (cacheKey osPlatform package)
            (some ⟨osPlatform, package, s.scanner.l2⟩) }
  | .reload globalMaps translations =>
    if globalMaps then
      (fillL2CacheTranslations engine s.scanner.l2 translations).map fun l2 =>
        { s with scanner := { s.scanner with l2 := l2 } }
    else some s

variable (translationLRUSize : Nat)

/-- The scanner from its start, with a Level 2 cache of the configured size. -/
def scannerSystem : TransitionSystem (Tracked ρ) FeedEvent where
  init := ⟨⟨.new l1CacheSize, .new translationLRUSize⟩, fun _ => none⟩
  step := Tracked.step engine

/-- A Level 1 hit uses what the Level 2 cache would give now. -/
def Transparent (s : Tracked ρ) : FeedEvent → Prop
  | .scan _ _ osPlatform package =>
    s.scanner.l1.isHit (cacheKey osPlatform package) = true →
      (s.scanner.l1.getValue (cacheKey osPlatform package)).1 =
        some (getTranslationFromL2 engine s.scanner.l2 package osPlatform)
  | .reload _ _ => True

/-- The entries of the feed that are read: those up to the first one that is not valid. -/
def validRows : TranslationsColumn → List (List Char × Translation ρ)
  | [] => []
  | (key, value) :: rest =>
    match value.bind (translationOf engine) with
    | none => []
    | some translationQuery => (key, translationQuery) :: validRows rest

/-- The entry of the feed does not matter to a stored package: the Level 2 cache has it already, or
neither it nor the entry it replaces applies to the package. -/
def Unaffected (l2 : LRUCache (Translation ρ)) (o : Origin ρ) (row : List Char × Translation ρ) :
    Prop :=
  l2.map.lookup row.1 = some row.2 ∨
    row.2.applies engine o.package o.osPlatform = false ∧
      ∀ old ∈ l2.map.lookup row.1, old.applies engine o.package o.osPlatform = false

instance [DecidableEq ρ] (l2 : LRUCache (Translation ρ)) (o : Origin ρ)
    (row : List Char × Translation ρ) : Decidable (Unaffected engine l2 o row) :=
  inferInstanceAs (Decidable (_ ∨ _ ∧ ∀ old ∈ l2.map.lookup row.1, _))

/-- A hit is for the platform, vendor and name that were stored under its key, and no entry that a
reload reads into a Level 2 cache with room matters to a stored package. -/
def Steady (s : Tracked ρ) : FeedEvent → Prop
  | .scan _ _ osPlatform package =>
    s.scanner.l1.isHit (cacheKey osPlatform package) = true →
      ∀ o ∈ s.origin (cacheKey osPlatform package), o.osPlatform = osPlatform ∧
        o.package.vendor = package.vendor ∧ o.package.name = package.name
  | .reload globalMaps translations =>
    globalMaps = true → s.scanner.l2.isFull = false →
      ∀ row ∈ validRows engine translations, ∀ stored ∈ s.scanner.l1.map.entries,
        ∀ o ∈ s.origin stored.1, Unaffected engine s.scanner.l2 o row

instance [DecidableEq ρ] (s : Tracked ρ) : ∀ e, Decidable (Steady engine s e)
  | .scan _ _ osPlatform package =>
    inferInstanceAs (Decidable (_ → ∀ o ∈ s.origin (cacheKey osPlatform package), _))
  | .reload _ translations =>
    inferInstanceAs (Decidable (_ → _ → ∀ row ∈ validRows engine translations,
      ∀ stored ∈ s.scanner.l1.map.entries, ∀ o ∈ s.origin stored.1, _))

/-! ## What is stored -/

/-- What is stored are the answers to the scans that stored it. -/
structure Stored (s : Tracked ρ) : Prop where
  capacity : s.scanner.l1.capacity = l1CacheSize
  answers : ∀ k translations, s.scanner.l1.map.lookup k = some translations →
    ∃ o, s.origin k = some o ∧ translations = o.answer engine

/-- The answers to the stored scans have not changed since. -/
def Fresh (s : Tracked ρ) : Prop :=
  ∀ k o, s.scanner.l1.isHit k = true → s.origin k = some o →
    o.answer engine = getTranslationFromL2 engine s.scanner.l2 o.package o.osPlatform

variable {engine} {cnaName osPlatform : List Char} {completes : PackageData → Bool}
  {package : PackageData} {result : ScanResult} {t : Scanner ρ} {s : Tracked ρ} {e : FeedEvent}

/-- The cases of a scan: a hit reorders the Level 1 cache, and a miss stores the translations or
nothing. -/
theorem scan_cases {s : Scanner ρ}
    (h : scanPackageTranslation engine cnaName completes osPlatform package s = some (t, result)) :
    t.l2 = s.l2 ∧
    ((s.l1.isHit (cacheKey osPlatform package) = true ∧
      t.l1 = (s.l1.getValue (cacheKey osPlatform package)).2) ∨
        (s.l1.isHit (cacheKey osPlatform package) = false ∧
          (t.l1 = s.l1 ∨ s.l1.insertKey (cacheKey osPlatform package)
              (getTranslationFromL2 engine s.l2 package osPlatform) = some t.l1))) := by
  rw [scanPackageTranslation] at h
  dsimp only at h
  split at h
  · rename_i hhit
    cases h
    exact ⟨rfl, .inl ⟨hhit, rfl⟩⟩
  · rename_i hmiss
    rw [Bool.not_eq_true] at hmiss
    split at h
    · split at h
      · obtain ⟨l1, hinsert, heq⟩ := map_eq_some_iff.1 h
        cases heq
        exact ⟨rfl, .inr ⟨hmiss, .inr hinsert⟩⟩
      · cases h
        exact ⟨rfl, .inr ⟨hmiss, .inl rfl⟩⟩
    · cases h
      exact ⟨rfl, .inr ⟨hmiss, .inl rfl⟩⟩

/-- A value that is stored after a scan was stored before by the same scan, or is the answer to this
one. -/
theorem Tracked.step_scan {t : Tracked ρ}
    (hstep : s.step engine (.scan cnaName completes osPlatform package) = some t) :
    t.scanner.l2 = s.scanner.l2 ∧ t.scanner.l1.capacity = s.scanner.l1.capacity ∧
      ∀ k translations, t.scanner.l1.map.lookup k = some translations →
        (s.scanner.l1.map.lookup k = some translations ∧ t.origin k = s.origin k) ∨
          (t.origin k = some ⟨osPlatform, package, s.scanner.l2⟩ ∧
            translations = getTranslationFromL2 engine s.scanner.l2 package osPlatform) := by
  obtain ⟨⟨scanner, result⟩, hscan, rfl⟩ := map_eq_some_iff.1 hstep
  obtain ⟨hl2, hl1⟩ := scan_cases hscan
  refine ⟨hl2, ?_⟩
  rcases hl1 with ⟨hhit, hread⟩ | ⟨hmiss, hstored⟩
  · rw [hread, LRUCache.map_getValue, LRUCache.capacity_getValue, if_pos hhit]
    exact ⟨rfl, fun k _ hlookup => .inl ⟨hlookup, rfl⟩⟩
  · rw [if_neg (Bool.eq_false_iff.1 hmiss)]
    -- what was stored before is under another key
    have hbefore : ∀ {k translations}, s.scanner.l1.map.lookup k = some translations →
        k ≠ cacheKey osPlatform package := by
      rintro k translations hk rfl
      rw [LRUCache.isHit, hk] at hmiss
      cases hmiss
    rcases hstored with hsame | hinsert
    · rw [hsame]
      exact ⟨rfl, fun k _ hlookup => .inl ⟨hlookup, Function.update_of_ne (hbefore hlookup) _ _⟩⟩
    · refine ⟨LRUCache.capacity_insertKey hinsert, fun k translations hlookup => ?_⟩
      rcases LRUCache.lookup_insertKey hinsert hlookup with ⟨rfl, rfl⟩ | ⟨hne, hlookup⟩
      · exact .inr ⟨Function.update_self _ _ _, rfl⟩
      · exact .inl ⟨hlookup, Function.update_of_ne hne _ _⟩

/-- The Level 2 cache is filled only while it is not full, so nothing is evicted from it. -/
theorem exists_fill (engine : RegexEngine ρ) (l2 : LRUCache (Translation ρ))
    (translations : TranslationsColumn) :
    ∃ l2', fillL2CacheTranslations engine l2 translations = some l2' := by
  induction translations generalizing l2 with
  | nil => exact ⟨l2, rfl⟩
  | cons row translations ih =>
    obtain ⟨key, value⟩ := row
    rw [fillL2CacheTranslations]
    split_ifs with hfull
    · exact ⟨l2, rfl⟩
    · split
      · exact ⟨l2, rfl⟩
      · rename_i translationQuery _
        have hpos : 0 < l2.capacity := Nat.zero_lt_of_lt (LRUCache.size_lt_of_not_isFull hfull)
        obtain ⟨next, hinsert⟩ := l2.insertKey_eq_some hpos key translationQuery
        obtain ⟨l2', hrest⟩ := ih next
        exact ⟨l2', by rw [hinsert]; exact hrest⟩

/-- No event blocks the run. -/
theorem exists_step (h : Stored engine s) (e : FeedEvent) : ∃ t, s.step engine e = some t := by
  cases e with
  | scan cnaName completes osPlatform package =>
    have hpos : 0 < s.scanner.l1.capacity := by
      rw [h.capacity]
      decide
    rw [Tracked.step, scanPackageTranslation]
    dsimp only
    split
    · exact ⟨_, rfl⟩
    · split
      · split
        · obtain ⟨l1, hinsert⟩ := s.scanner.l1.insertKey_eq_some hpos (cacheKey osPlatform package)
            (getTranslationFromL2 engine s.scanner.l2 package osPlatform)
          rw [hinsert]
          exact ⟨_, rfl⟩
        · exact ⟨_, rfl⟩
      · exact ⟨_, rfl⟩
  | reload globalMaps translations =>
    rw [Tracked.step]
    split
    · obtain ⟨l2, hfill⟩ := exists_fill engine s.scanner.l2 translations
      exact ⟨_, map_eq_some_iff.2 ⟨l2, hfill, rfl⟩⟩
    · exact ⟨s, rfl⟩

theorem Stored.init :
    Stored engine (scannerSystem engine translationLRUSize).init where
  capacity := rfl
  answers _ _ h := by cases h

theorem Stored.step {t : Tracked ρ} (h : Stored engine s) (hstep : s.step engine e = some t) :
    Stored engine t := by
  cases e with
  | scan cnaName completes osPlatform package =>
    obtain ⟨-, hcapacity, hstored⟩ := Tracked.step_scan hstep
    refine ⟨hcapacity.trans h.capacity, fun k translations hlookup => ?_⟩
    rcases hstored k translations hlookup with ⟨hbefore, horigin⟩ | ⟨horigin, rfl⟩
    · rw [horigin]
      exact h.answers k translations hbefore
    · exact ⟨_, horigin, rfl⟩
  | reload globalMaps translations =>
    rw [Tracked.step] at hstep
    split at hstep
    · obtain ⟨l2, -, rfl⟩ := map_eq_some_iff.1 hstep
      exact ⟨h.capacity, h.answers⟩
    · cases hstep
      exact h

/-! ## Reloads -/

/-- What the Level 2 cache has under a key for the package. -/
def found (engine : RegexEngine ρ) (l2 : LRUCache (Translation ρ)) (o : Origin ρ)
    (key : List Char) : List TranslatedData :=
  ((l2.map.lookup key).map fun cacheData =>
    if cacheData.applies engine o.package o.osPlatform then cacheData.results engine o.package
    else []).getD []

variable {l2 before after : LRUCache (Translation ρ)} {o : Origin ρ}
  {translations : TranslationsColumn}

theorem Unaffected.found_eq {row : List Char × Translation ρ} (h : Unaffected engine l2 o row) :
    (if row.2.applies engine o.package o.osPlatform then row.2.results engine o.package else []) =
      found engine l2 o row.1 := by
  rw [found]
  rcases h with hsame | ⟨hnew, hold⟩
  · rw [hsame]
    rfl
  · rw [hnew]
    cases hlookup : l2.map.lookup row.1 with
    | none => rfl
    | some old =>
      have hnot := hold old hlookup
      simp [hnot]

/-- Entries that do not matter to a package leave its answer as it is. The rows are compared with
the cache before the first of them, under whose keys the same is found until the last. -/
theorem fill_unaffected (hfill : fillL2CacheTranslations engine l2 translations = some after)
    (hrows : ∀ row ∈ validRows engine translations, Unaffected engine before o row)
    (hfound : found engine l2 o = found engine before o) :
    getTranslationFromL2 engine after o.package o.osPlatform =
      getTranslationFromL2 engine l2 o.package o.osPlatform := by
  induction translations generalizing l2 with
  | nil =>
    cases hfill
    rfl
  | cons row translations ih =>
    obtain ⟨key, value⟩ := row
    rw [fillL2CacheTranslations] at hfill
    rw [validRows] at hrows
    split_ifs at hfill with hfull
    · cases hfill
      rfl
    · cases hvalue : value.bind (translationOf engine) with
      | none =>
        rw [hvalue] at hfill
        cases hfill
        rfl
      | some translationQuery =>
        rw [hvalue] at hfill hrows
        rw [forall_mem_cons] at hrows
        obtain ⟨next, hinsert, hrest⟩ := bind_eq_some_iff.1 hfill
        have hmap := LRUCache.map_insertKey hfull hinsert
        have hrow := hrows.1.found_eq
        rw [← hfound] at hrow
        have hnext : found engine next o = found engine before o := by
          rw [← hfound]
          funext k
          rw [found, found, hmap, OrderedStore.lookup_put]
          split_ifs with hk
          · rw [hk]
            exact hrow
          · rfl
        rw [ih hrest hrows.2 hnext, getTranslationFromL2, hmap]
        exact l2.map.flatMap_put hrow

theorem fill_isFull (hfull : l2.isFull = true) :
    fillL2CacheTranslations engine l2 translations = some l2 := by
  cases translations with
  | nil => rfl
  | cons row translations => rw [fillL2CacheTranslations, if_pos hfull]

theorem Fresh.step {t : Tracked ρ} (hfresh : Fresh engine s) (hsteady : Steady engine s e)
    (hstep : s.step engine e = some t) : Fresh engine t := by
  cases e with
  | scan cnaName completes osPlatform package =>
    obtain ⟨hl2, -, hstored⟩ := Tracked.step_scan hstep
    intro k o hhit ho
    obtain ⟨translations, hlookup⟩ := isSome_iff_exists.1 hhit
    rw [hl2]
    rcases hstored k translations hlookup with ⟨hbefore, horigin⟩ | ⟨horigin, -⟩
    · exact hfresh k o (isSome_iff_exists.2 ⟨translations, hbefore⟩) (horigin ▸ ho)
    · rw [horigin] at ho
      cases ho
      rfl
  | reload globalMaps translations =>
    rw [Tracked.step] at hstep
    split_ifs at hstep with hmaps
    · obtain ⟨l2, hfill, rfl⟩ := map_eq_some_iff.1 hstep
      intro k o hhit ho
      rw [hfresh k o hhit ho]
      cases hfull : s.scanner.l2.isFull with
      | true =>
        rw [fill_isFull hfull] at hfill
        cases hfill
        rfl
      | false =>
        obtain ⟨translations', hlookup⟩ := isSome_iff_exists.1 hhit
        have hmem := (OrderedStore.lookup_eq_some_iff _).1 hlookup
        exact (fill_unaffected hfill
          (fun row hrow => hsteady hmaps hfull row hrow _ hmem o ho) rfl).symm
    · cases hstep
      exact hfresh

theorem Fresh.transparent (hfresh : Fresh engine s) (hstored : Stored engine s)
    (hsteady : Steady engine s e) : Transparent engine s e := by
  cases e with
  | reload globalMaps translations => trivial
  | scan cnaName completes osPlatform package =>
    intro hhit
    obtain ⟨translations, hlookup⟩ := isSome_iff_exists.1 hhit
    obtain ⟨o, ho, rfl⟩ := hstored.answers _ _ hlookup
    obtain ⟨rfl, hvendor, hname⟩ := hsteady hhit o ho
    rw [LRUCache.getValue_eq_lookup, hlookup, hfresh _ o hhit ho]
    -- the search looks at the name, the vendor and the platform only
    simp only [getTranslationFromL2, Translation.applies, Translation.results, hvendor, hname]
    rfl

variable (engine)

/-- Every sequence of scans and reloads runs. If its hits are for the platform, vendor and name
stored under the key and its reloads write no entry that matters to a stored package, all its Level
1 hits use what the Level 2 cache would give. -/
theorem level1_transparent (events : List FeedEvent) :
    let system := scannerSystem engine translationLRUSize
    (∃ t, system.run events = some t) ∧
      (system.StepsMeet (Steady engine) system.init events →
        system.StepsMeet (Transparent engine) system.init events) := by
  intro system
  have hinit : Stored engine system.init := Stored.init translationLRUSize
  have hfresh : Fresh engine system.init := by
    intro k o hhit
    cases hhit
  constructor
  · have hstep : ∀ s e, Stored engine s → ∃ t, s.step engine e = some t ∧ Stored engine t := by
      intro s e hs
      obtain ⟨t, ht⟩ := exists_step hs e
      exact ⟨t, ht, hs.step ht⟩
    obtain ⟨t, hrun, -⟩ := system.exists_runFrom hstep hinit events
    exact ⟨t, hrun⟩
  · apply TransitionSystem.StepsMeet.imp (P := fun s => Stored engine s ∧ Fresh engine s)
    · exact fun s e t hs hok hstep => ⟨hs.1.step hstep, hs.2.step hok hstep⟩
    · exact fun s e hs hok => hs.2.transparent hs.1 hok
    · exact ⟨hinit, hfresh⟩

end System

/-! ## Runs of a feed with one translation -/

/-- Patterns without special characters: the text itself is searched. -/
def literalEngine : RegexEngine (List Char) where
  compile := some
  search pattern text := if text.tails.any (fun t => pattern.isPrefixOf t) then some [] else none

/-- A package, scanned by all its candidates. -/
def scanOf (vendor name : List Char) : FeedEvent :=
  .scan "nvd".toList (fun _ => true) "ubuntu".toList ⟨name, vendor, "deb".toList, "1.0".toList⟩

/-- An entry of the feed for a vendor and a product. -/
def entryOf (vendor product target : List Char) : Option TranslationEntry :=
  some ⟨⟨some vendor, some product, none⟩, ["ubuntu".toList], [⟨none, some target, none⟩]⟩

/-- A package that is scanned again after a reload of the same feed with one more entry. -/
def repeatedEvents : List FeedEvent :=
  [.reload true [("T1".toList, entryOf "a".toList "c".toList "first".toList)],
    scanOf "a".toList "c".toList,
    .reload true [("T1".toList, entryOf "a".toList "c".toList "first".toList),
      ("T2".toList, entryOf "b".toList "d".toList "second".toList)],
    scanOf "a".toList "c".toList]

/-- The second scan hits, and uses the translation of the feed. -/
theorem level1_transparent_repeated :
    (scannerSystem literalEngine 2048).StepsMeet (Transparent literalEngine)
      (scannerSystem literalEngine 2048).init repeatedEvents :=
  (level1_transparent literalEngine 2048 repeatedEvents).2 (by decide +kernel)

/-- Two packages with one key, of which the feed translates the first. -/
def sharedKeyEvents : List FeedEvent :=
  [.reload true [("T1".toList, entryOf "a_b".toList "c".toList "first".toList)],
    scanOf "a_b".toList "c".toList]

/-- A package whose translation changes with the feed. -/
def reloadedEvents : List FeedEvent :=
  [.reload true [("T1".toList, entryOf "a".toList "c".toList "first".toList)], scanOf "a".toList
    "c".toList, .reload true [("T1".toList, entryOf "a".toList "c".toList "second".toList)]]

/-- The next scan of `vendor` and `name` hits and uses `cached`, and the Level 2 cache has
`current`. -/
def NextHit (events : List FeedEvent) (vendor name : List Char)
    (cached current : List TranslatedData) : Prop :=
  let package : PackageData := ⟨name, vendor, "deb".toList, "1.0".toList⟩
  ((scannerSystem literalEngine 2048).run events).any (fun t =>
    t.scanner.l1.isHit (cacheKey "ubuntu".toList package) &&
    (t.scanner.l1.getValue (cacheKey "ubuntu".toList package)).1 = some cached &&
    getTranslationFromL2 literalEngine t.scanner.l2 package "ubuntu".toList = current) = true

instance (events : List FeedEvent) (vendor name : List Char)
    (cached current : List TranslatedData) :
    Decidable (NextHit events vendor name cached current) := inferInstanceAs (Decidable (_ = true))

/-- The package `b_c` of the vendor `a` gets the translation of the package `c` of the vendor `a_b`;
and a translation that the feed replaced is used on. -/
theorem level1_hit_differs :
    NextHit sharedKeyEvents "a".toList "b_c".toList [⟨"first".toList, [], []⟩] [] ∧
    NextHit reloadedEvents "a".toList "c".toList [⟨"first".toList, [], []⟩]
      [⟨"second".toList, [], []⟩] := by
  refine ⟨?_, ?_⟩
  · decide +kernel
  · decide +kernel

/-! ## The first entry that applies -/

section FirstMatch

variable {ρ : Type} (engine : RegexEngine ρ) (l2 : LRUCache (Translation ρ)) (package : PackageData)
  (osPlatform : List Char)

/-- The entries of the Level 2 cache that apply to a package, in the order of their keys. -/
def matchingEntries : List (Translation ρ) :=
  (l2.map.entries.map Prod.snd).filter fun cacheData => cacheData.applies engine package osPlatform

theorem getTranslationFromL2_eq :
    getTranslationFromL2 engine l2 package osPlatform =
    (matchingEntries engine l2 package osPlatform).flatMap fun cacheData =>
      cacheData.results engine package := by
  rw [getTranslationFromL2, matchingEntries]
  induction l2.map.entries with
  | nil => rfl
  | cons e entries ih =>
    rw [flatMap_cons, ih, map_cons, filter_cons]
    split
    · rfl
    · rfl

theorem Translation.results_eq_nil_iff (cacheData : Translation ρ) :
    cacheData.results engine package = [] ↔ cacheData.translation = [] :=
  map_eq_nil_iff

/-- The search returns the translations of the first entry that applies, and nothing only if none
does, exactly if that entry has translations and no later one that applies has any. -/
theorem getTranslationFromL2_first_iff :
    (getTranslationFromL2 engine l2 package osPlatform =
        (matchingEntries engine l2 package osPlatform).head?.elim []
          (fun cacheData => cacheData.results engine package) ∧
      (getTranslationFromL2 engine l2 package osPlatform = [] ↔
        matchingEntries engine l2 package osPlatform = [])) ↔
    ∀ first rest, matchingEntries engine l2 package osPlatform = first :: rest →
      first.translation ≠ [] ∧ ∀ later ∈ rest, later.translation = [] := by
  rw [getTranslationFromL2_eq]
  cases matchingEntries engine l2 package osPlatform with
  | nil => simp
  | cons first rest =>
    -- the later entries add nothing to the translations of the first one
    have hrest : (rest.flatMap fun cacheData => cacheData.results engine package) = [] ↔
        ∀ later ∈ rest, later.translation = [] := by
      simp [Translation.results_eq_nil_iff]
    have hfirst := first.results_eq_nil_iff engine package
    simp only [flatMap_cons, head?_cons, elim_some, append_right_eq_self,
      append_eq_nil_iff, hrest, hfirst, reduceCtorEq, iff_false, cons.injEq]
    constructor
    · rintro ⟨hlater, hnot⟩ _ _ ⟨rfl, rfl⟩
      exact ⟨fun hnil => hnot ⟨hnil, hlater⟩, hlater⟩
    · intro h
      obtain ⟨hne, hlater⟩ := h first rest ⟨rfl, rfl⟩
      exact ⟨hlater, fun hnil => hne hnil.1⟩

end FirstMatch

/-- Two entries apply, and the result has the translations of both. -/
theorem getTranslationFromL2_two_entries :
    ((fillL2CacheTranslations literalEngine (.new 2)
      [("T1".toList, entryOf "a".toList "c".toList "first".toList),
        ("T2".toList, entryOf "a".toList "c".toList "second".toList)]).map fun l2 =>
      (getTranslationFromL2 literalEngine l2 ⟨"c".toList, "a".toList, "deb".toList, "1.0".toList⟩
        "ubuntu".toList).map
        TranslatedData.translatedProduct) = some ["first".toList, "second".toList] := by
  decide +kernel

end WazAISentinel.VulnerabilityScanner
