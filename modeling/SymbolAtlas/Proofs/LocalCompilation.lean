import SymbolAtlas.Proofs.ChangedContents
import SymbolAtlas.Proofs.Compilation

/-!
# Compilation is local

A compilation reads the module that it is about and the modules that it reaches from there
along import statements, and no others.  Contents that it does not read do not count:
whatever it finds, a module or a fault, it still finds when they are changed.

## Main Definitions

* `Compilation.Reaches`: a module is reached along import statements.
* `Compilation.Spares`: the contents of a file do not count for a compilation.

## Main Statements

* `load_congr`: what is loaded depends on the texts that are reached.
* `Compilation.result_congr`: and so does the result of a compilation.
* `Compilation.Spares.result_eq`: contents that do not count can be changed.
-/

namespace SymbolAtlas

theorem foldlM_congr {m : Type → Type} [Monad m] {α β : Type} {first second : β → α → m β}
    {l : List α} (h : ∀ a ∈ l, ∀ b, first b a = second b a) (b : β) :
    l.foldlM first b = l.foldlM second b := by
  induction l generalizing b with
  | nil => rfl
  | cons a l ih =>
    obtain ⟨ha, hl⟩ := List.forall_mem_cons.1 h
    rw [List.foldlM_cons, List.foldlM_cons, ha]
    congr 1
    funext b'
    exact ih hl b'

theorem lift_bind_congr {ε σ α β : Type} {x : Except ε α} {first second : α → StateT σ (Except ε) β}
    (h : ∀ a, x = .ok a → first a = second a) :
    ((liftM x : StateT σ (Except ε) α) >>= first) = (liftM x >>= second) := by
  funext s
  cases x with
  | error e => rfl
  | ok a =>
    show first a s = second a s
    rw [h a rfl]

section Congruence

variable {config : Config} {tree : FileTree} {f : List EntryName → Contents → Contents}
  {first second : Path → Crawl Module}

/-- What is built depends on the modules that the import statements of the text lead to. -/
theorem buildModule_mapContents {path : Path} {source : String}
    (h : ∀ outline, Outline.parse source = .ok outline → ∀ s ∈ outline.imports, ∀ target,
      resolvePackage? tree path.parent s.package config.searchFolders config.extension =
        some target → first (tree.canonical target) = second (tree.canonical target)) :
    buildModule config (tree.mapContents f) first path source =
      buildModule config tree second path source := by
  unfold buildModule
  cases hparse : Outline.parse source with
  | error cause => rfl
  | ok outline =>
    have hbind : ∀ s ∈ outline.imports, ∀ table,
        bindStatement config (tree.mapContents f) first path table s =
          bindStatement config tree second path table s := by
      intro s hs table
      unfold bindStatement
      rw [resolvePackage?_mapContents]
      cases hresolve : resolvePackage? tree path.parent s.package config.searchFolders
          config.extension with
      | none => rfl
      | some target =>
        dsimp only
        rw [FileTree.canonical_mapContents, h outline hparse s hs target hresolve]
    have htable : buildTable config (tree.mapContents f) first path outline =
        buildTable config tree second path outline := by
      unfold buildTable
      congr 1
      funext table
      rw [foldlM_congr hbind]
    dsimp only
    rw [htable]

end Congruence

namespace Compilation

/-- A module is reached from the compiled one along import statements. -/
def Reaches (c : Compilation) (p : Path) : Prop := Relation.ReflTransGen c.Imports c.start p

/-- The same compilation in another tree. -/
def within (c : Compilation) (tree : FileTree) : Compilation := { c with tree := tree }

variable {c : Compilation} {f : List EntryName → Contents → Contents}

/-- What is reached is given by its canonical path. -/
theorem Reaches.canonical_eq {p : Path} (h : c.Reaches p) : c.tree.canonical p = p := by
  cases h with
  | refl => exact FileTree.canonical_canonical _ _
  | tail _ himports =>
    obtain ⟨outline, -, s, -, target, -, -, rfl⟩ := himports
    exact FileTree.canonical_canonical _ _

/-- An import statement of a module that is reached leads on. -/
theorem Reaches.resolve {p : Path} (h : c.Reaches p) {source : String}
    (htext : c.text p = .ok source) {outline : Outline}
    (hparse : Outline.parse source = .ok outline) {s : ImportStatement} (hs : s ∈ outline.imports)
    {target : Path} (hresolve : resolvePackage? c.tree p.parent s.package c.config.searchFolders
      c.config.extension = some target) : c.Reaches (c.tree.canonical target) :=
  h.tail ⟨outline, ⟨source, htext, hparse⟩, s, hs, target, hresolve,
    isFile_of_resolvePackage? hresolve, rfl⟩

theorem start_within : (c.within (c.tree.mapContents f)).start = c.start :=
  FileTree.canonical_mapContents f c.tree c.file

/-- What is loaded depends on the texts of the modules that are reached. -/
theorem load_congr (htext : ∀ p, c.Reaches p → (c.within (c.tree.mapContents f)).text p = c.text p)
    {budget : Nat} {opened : List Path} (hopened : c.start ∈ opened) {importer target : Path}
    (htarget : c.Reaches target) :
    load c.config (c.tree.mapContents f) budget opened importer target =
      load c.config c.tree budget opened importer target := by
  induction budget generalizing opened importer target with
  | zero =>
    rw [load.eq_def, load.eq_def c.config c.tree 0]
  | succ budget ih =>
    rw [load.eq_def, load.eq_def c.config c.tree (budget + 1)]
    cases hopen : opened.any (·.same target) with
    | true => simp only [hopen, if_true]
    | false =>
      -- a module that is not open is not the compiled one, so its text is on disk
      have hfresh : c.start.same target = false := by
        simpa using List.any_eq_false.1 hopen c.start hopened
      have hdisk := text_of_ne_start hfresh
      have hread : (c.tree.mapContents f).readText target = c.tree.readText target := by
        have hfresh' : (c.within (c.tree.mapContents f)).start.same target = false := by
          rw [start_within, hfresh]
        rw [← hdisk, ← htext target htarget, text_of_ne_start hfresh']
        rfl
      have hmodule : readModule (c.tree.mapContents f) target = readModule c.tree target := by
        unfold readModule
        rw [hread]
      have hbuild : ∀ source, readModule c.tree target = .ok source →
          buildModule c.config (c.tree.mapContents f)
              (load c.config (c.tree.mapContents f) budget (target :: opened) target)
              target source =
            buildModule c.config c.tree
              (load c.config c.tree budget (target :: opened) target) target source := by
        intro source hsource
        apply buildModule_mapContents
        intro outline hparse s hs next hresolve
        have hsees : c.text target = .ok source := by
          rw [hdisk]
          exact readModule_eq_ok_iff.1 hsource
        exact ih (List.mem_cons_of_mem _ hopened) (htarget.resolve hsees hparse hs hresolve)
      simp only [hmodule, hopen]
      congr 1
      funext finished
      cases finished.find? (·.path.same target) with
      | some m => rfl
      | none =>
        apply lift_bind_congr
        intro source hsource
        rw [hbuild source hsource]

/-- The text that a compilation starts from. -/
def source (c : Compilation) : Except Fault String :=
  match c.buffer with
  | some text => .ok text
  | none => readModule c.tree c.start

theorem result_eq (c : Compilation) :
    c.result = c.source >>= fun text => Prod.fst <$> c.crawl c.tree.fileCount text := by
  rw [← resultWithin_fileCount, resultWithin, source]
  cases c.buffer <;> rfl

theorem text_start_of_source {text : String} (h : c.source = .ok text) :
    c.text c.start = .ok text := by
  rw [text_start_eq_ok_iff]
  unfold source at h
  cases hbuffer : c.buffer with
  | some buffer => exact .inl (by rw [hbuffer] at h; exact congrArg some (Except.ok.inj h))
  | none => exact .inr ⟨rfl, by rw [hbuffer] at h; exact readModule_eq_ok_iff.1 h⟩

theorem source_congr {c' : Compilation} (hbuffer : c'.buffer = c.buffer)
    (hstart : c'.start = c.start) (htext : c'.text c.start = c.text c.start) :
    c'.source = c.source := by
  unfold source readModule
  unfold text at htext
  rw [hbuffer, hstart] at *
  cases hb : c.buffer with
  | some buffer => rfl
  | none =>
    rw [hb] at htext
    dsimp only at htext ⊢
    rw [htext]

/-- The result of a compilation depends on the texts of the modules that it reaches. -/
theorem result_congr
    (htext : ∀ p, c.Reaches p → (c.within (c.tree.mapContents f)).text p = c.text p) :
    (c.within (c.tree.mapContents f)).result = c.result := by
  have hstart : c.Reaches c.start := .refl
  have hsource : (c.within (c.tree.mapContents f)).source = c.source :=
    source_congr rfl start_within (htext c.start hstart)
  have hcrawl : ∀ text, c.source = .ok text →
      (c.within (c.tree.mapContents f)).crawl c.tree.fileCount text =
        c.crawl c.tree.fileCount text := by
    intro text hfound
    unfold crawl
    rw [start_within]
    refine congrFun (buildModule_mapContents ?_) []
    intro outline hparse s hs target hresolve
    exact load_congr htext List.mem_cons_self
      (hstart.resolve (text_start_of_source hfound) hparse hs hresolve)
  have hfiles : (c.within (c.tree.mapContents f)).tree.fileCount = c.tree.fileCount :=
    FileTree.fileCount_mapContents f c.tree
  rw [result_eq, result_eq, hsource, hfiles]
  cases hfound : c.source with
  | error e => rfl
  | ok text => exact congrArg (Functor.map Prod.fst) (hcrawl text hfound)

/-- The contents of a file do not count for a compilation: the file is not reached, or it is
the compiled one and a buffer is given for it. -/
def Spares (c : Compilation) (g : Path) : Prop :=
  ¬ c.Reaches (c.tree.canonical g) ∨ c.start = c.tree.canonical g ∧ c.buffer.isSome = true

/-- Contents that do not count can be changed. -/
theorem Spares.result_eq {g : Path} (h : c.Spares g) (contents : Contents) :
    (c.within (c.tree.rewrite g contents)).result = c.result := by
  apply result_congr
  intro p hp
  show (c.within (c.tree.rewrite g contents)).text p = c.text p
  have hstart : (c.within (c.tree.rewrite g contents)).start = c.start := start_within
  by_cases hg : p = c.tree.canonical g
  · -- only the compiled module is reached there, and its text is the buffer
    obtain ⟨hcompiled, hbuffer⟩ := h.resolve_left fun hunreached => hunreached (hg ▸ hp)
    obtain ⟨buffer, hbuffer⟩ := Option.isSome_iff_exists.1 hbuffer
    have hsame : c.start.same p = true := by rw [hg, ← hcompiled, Path.same_refl]
    unfold text
    rw [hstart]
    simp only [within, hbuffer, hsame, if_true]
  · have hread : (c.tree.rewrite g contents).readText p = c.tree.readText p := by
      apply FileTree.readText_rewrite_of_ne
      rwa [hp.canonical_eq]
    unfold text
    rw [hstart]
    simp only [within, hread]

end Compilation

end SymbolAtlas
