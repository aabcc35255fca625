import PinguinOS.Ipc.ElfContent
import PinguinOS.Mm.Alike

/-! Which files `elf32_load` loads without leaving the file and the pages it has mapped. -/
namespace PinguinOS.Ipc

open Fs (bytesAt)
open Mm (Vm Process TablesOk TablesWritable FreshPage Alike Directory u32 u32_lt pageSize
  pagingGetPhys pagingMapPage bitmapTest pdePresent pdeWritable)

/-- The page of the address was mapped by the load so far, and was not mapped before it. -/
def OwnPage (v : Vm) (trace : List ElfEvent) (a : Nat) : Prop :=
  .mapped (a / 4096) ∈ trace ∧ ¬ v.Grants a pdePresent

/-- Reads lie in the file, and writes go to pages of the load; the last event first. -/
def Confined (v : Vm) (f : ElfFile) : List ElfEvent → Prop
  | [] => True
  | .read off len :: earlier => off + len ≤ f.size ∧ Confined v f earlier
  | .mapped _ :: earlier => Confined v f earlier
  | .store a :: earlier => OwnPage v earlier a ∧ Confined v f earlier

/-- No page is allocated or mapped that was not before. -/
structure Released (v u : Vm) : Prop where
  pages : ∀ j < v.pmm.totalPages, bitmapTest u.pmm j = bitmapTest v.pmm j
  mapped : ∀ a, pagingGetPhys u a = pagingGetPhys v a

/-- The load keeps to the file and to its own pages, and an error leaves no page behind. -/
structure ElfConfines (v : Vm) (f : ElfFile) (o : ElfOutcome) : Prop where
  confined : Confined v f o.run.trace
  released : ∀ code < 0, o.code = some code → Released v o.run.vm

/-- The loader's page loops alone, for the headers below `i`. -/
def elfReserve (v : Vm) (f : ElfFile) : (i : Nat) → ElfEnd × ElfRun
  | 0 => (.next, ⟨v, []⟩)
  | i + 1 =>
    andThen (elfReserve v f i) fun q =>
      if (f.ph i).type ≠ ptLoad then (.next, q) else elfMapPages (f.ph i) (f.ph i).pages 0 q

/-- The bytes at the wrapped offset lie in the file. -/
def ElfFile.Has (f : ElfFile) (off len : Nat) : Prop := u32 off + len ≤ f.size

/-- The fields for the copy lie in the file, and what is copied lies in the file and goes to pages
of the load. -/
def FillConfined (v : Vm) (f : ElfFile) (i : Nat) (trace : List ElfEvent) : Prop :=
  f.Has (f.phdr i + 16) 4 ∧ ((f.ph i).filesz ≠ 0 → f.Has (f.phdr i + 4) 4 ∧
    (u32 ((f.ph i).offset + (f.ph i).filesz) ≤ f.size → f.Has (f.ph i).offset (f.ph i).filesz ∧
      ∀ j < (f.ph i).filesz, OwnPage v trace ((f.ph i).addr j)))

/-- How the page loop of the segment `i` may end: the pages hold all of the segment, or no page can
be had at all. -/
def PagesConfined (v : Vm) (f : ElfFile) (i : Nat) : ElfEnd × ElfRun → Prop
  | (.next, q) =>
    (∀ j < (f.ph i).memsz, OwnPage v q.trace ((f.ph i).addr j)) ∧ FillConfined v f i q.trace
  | _ => v.allocPage.1 = 0

def SegmentConfined (v : Vm) (f : ElfFile) (i : Nat) : Prop :=
  f.Has (f.phdr i + 8) 4 ∧ f.Has (f.phdr i + 20) 4 ∧ PagesConfined v f i (elfReserve v f (i + 1))

def HeaderConfined (v : Vm) (f : ElfFile) (i : Nat) : Prop :=
  f.Has (f.phdr i) 4 ∧ ((f.ph i).type = ptLoad → SegmentConfined v f i)

/-- The header checks refuse the file, or every header is confined that the page loops reach. -/
def ElfFile.Confinable (f : ElfFile) (v : Vm) : Prop :=
  f.Rejected ∨ ∀ i < f.ePhnum, (elfReserve v f i).1 = .next → HeaderConfined v f i

instance decidableOwnPage {v : Vm} {trace : List ElfEvent} {a : Nat} :
    Decidable (OwnPage v trace a) :=
  inferInstanceAs (Decidable (.mapped (a / 4096) ∈ trace ∧ ¬ v.Grants a pdePresent))

instance ElfFile.decidableHas {f : ElfFile} {off len : Nat} : Decidable (f.Has off len) :=
  inferInstanceAs (Decidable (u32 off + len ≤ f.size))

instance decidableFillConfined {v : Vm} {f : ElfFile} {i : Nat} {trace : List ElfEvent} :
    Decidable (FillConfined v f i trace) :=
  inferInstanceAs (Decidable (f.Has (f.phdr i + 16) 4 ∧ ((f.ph i).filesz ≠ 0 →
    f.Has (f.phdr i + 4) 4 ∧ (u32 ((f.ph i).offset + (f.ph i).filesz) ≤ f.size →
      f.Has (f.ph i).offset (f.ph i).filesz ∧
        ∀ j < (f.ph i).filesz, OwnPage v trace ((f.ph i).addr j)))))

instance decidablePagesConfined {v : Vm} {f : ElfFile} {i : Nat} :
    (s : ElfEnd × ElfRun) → Decidable (PagesConfined v f i s)
  | (.next, q) => inferInstanceAs (Decidable
      ((∀ j < (f.ph i).memsz, OwnPage v q.trace ((f.ph i).addr j)) ∧ FillConfined v f i q.trace))
  | (.returns _, _) => inferInstanceAs (Decidable (v.allocPage.1 = 0))
  | (.stuck, _) => inferInstanceAs (Decidable (v.allocPage.1 = 0))

instance decidableHeaderConfined {v : Vm} {f : ElfFile} {i : Nat} :
    Decidable (HeaderConfined v f i) :=
  inferInstanceAs (Decidable (f.Has (f.phdr i) 4 ∧ ((f.ph i).type = ptLoad →
    f.Has (f.phdr i + 8) 4 ∧ f.Has (f.phdr i + 20) 4 ∧
      PagesConfined v f i (elfReserve v f (i + 1)))))

instance ElfFile.decidableConfinable {f : ElfFile} {v : Vm} : Decidable (f.Confinable v) :=
  inferInstanceAs (Decidable ((f.size < elfHeaderSize ∨ bytesAt f.at32 0 4 ≠ elfMagic ∨
    f.eType ≠ etExec ∨ f.eMachine ≠ em386) ∨
      ∀ i < f.ePhnum, (elfReserve v f i).1 = .next → HeaderConfined v f i))

variable {kernStart kernEnd totalPages a i j k m n p faults dst off len : Nat} {v u : Vm}
  {f : ElfFile} {ph : ElfPhdr} {q q' r r' : ElfRun} {byte : Nat → BitVec 8}
  {current : Option Process} {entryOut : Bool} {l l' : List ElfEvent}

/-! What was done before a step stays in the trace. -/

theorem Confined.suffix (h : Confined v f l') (hsuffix : l <:+ l') : Confined v f l := by
  induction l' with
  | nil =>
    rw [List.suffix_nil.mp hsuffix]
    trivial
  | cons e earlier ih =>
    rcases List.suffix_cons_iff.mp hsuffix with rfl | hrest
    · exact h
    · refine ih ?_ hrest
      cases e with
      | read off len => exact h.2
      | mapped page => exact h
      | store a => exact h.2

/-- A byte is written only to a page that the load maps. -/
theorem ElfConfines.store_mapped {o : ElfOutcome} (h : ElfConfines v f o)
    (hstore : .store a ∈ o.run.trace) : .mapped (a / 4096) ∈ o.run.trace := by
  obtain ⟨earlier, rest, htrace⟩ := List.mem_iff_append.mp hstore
  have hconf := h.confined.suffix (l := .store a :: rest) (htrace ▸ List.suffix_append _ _)
  rw [htrace]
  exact List.mem_append_right _ (List.mem_cons_of_mem _ hconf.1.1)

theorem suffix_andThen {step : ElfEnd × ElfRun} {k : ElfRun → ElfEnd × ElfRun}
    (h : l <:+ step.2.trace) (hk : ∀ r, r.trace <:+ (k r).2.trace) :
    l <:+ (andThen step k).2.trace := by
  obtain ⟨e, r⟩ := step
  cases e with
  | next => exact h.trans (hk r)
  | returns code => exact h
  | stuck => exact h

theorem suffix_read : r.trace <:+ (r.read off len).trace := List.suffix_cons _ _

theorem suffix_mapPages : r.trace <:+ (elfMapPages ph n p r).2.trace := by
  induction n generalizing p r with
  | zero => exact List.suffix_rfl
  | succ n ih =>
    unfold elfMapPages
    dsimp only
    split
    case isTrue => exact List.suffix_rfl
    case isFalse =>
      refine List.IsSuffix.trans ?_ ih
      dsimp only
      split_ifs
      · exact List.suffix_cons _ _
      · exact List.suffix_rfl

theorem suffix_write : r.trace <:+ (elfWrite current faults dst byte n i r).2.trace := by
  induction n generalizing i r with
  | zero => exact List.suffix_rfl
  | succ n ih =>
    unfold elfWrite
    dsimp only
    split
    case h_1 => exact List.suffix_cons _ _
    case h_2 =>
      refine List.IsSuffix.trans ?_ ih
      exact List.suffix_cons _ _

theorem suffix_fill : r.trace <:+ (elfFill current faults f i r).2.trace := by
  unfold elfFill
  dsimp only
  split
  case isTrue => exact suffix_read
  case isFalse =>
    split
    case isTrue =>
      unfold elfCopy
      exact List.IsSuffix.trans ((suffix_read.trans suffix_read).trans suffix_read) suffix_write
    case isFalse => exact suffix_read.trans suffix_read

theorem suffix_segment : r.trace <:+ (elfLoadSegment current faults f i r).2.trace :=
  suffix_andThen ((suffix_read.trans suffix_read).trans suffix_mapPages) fun _ =>
    suffix_andThen suffix_write fun _ => suffix_fill

theorem suffix_headers : r.trace <:+ (elfLoadHeaders current faults f n i r).2.trace := by
  induction n generalizing i r with
  | zero => exact List.suffix_rfl
  | succ n ih =>
    unfold elfLoadHeaders
    dsimp only
    split
    case isTrue => exact suffix_read.trans ih
    case isFalse => exact suffix_andThen (suffix_read.trans suffix_segment) fun _ => ih

/-! What the page loops alone leave. -/

/-- Memory after some page loops: the pages mapped have frames of their own, and unless nothing has
happened a page is taken that was free. -/
structure Reserved (kernStart kernEnd totalPages : Nat) (v : Vm) (q : ElfRun) : Prop where
  tables : TablesOk kernStart kernEnd totalPages q.vm
  writable : TablesWritable q.vm
  pages : ∀ n, .mapped n ∈ q.trace → ∃ g, q.vm.MapsTo n g ∧
    FreshPage kernStart kernEnd totalPages q.vm g ∧ q.vm.Grants (n * 4096) pdeWritable
  taken : q.vm = v ∨ v.allocPage.1 ≠ 0 ∧ ∃ g, bitmapTest v.pmm g = false ∧
    FreshPage kernStart kernEnd totalPages q.vm g

theorem reserved_start (h : Directory kernStart kernEnd totalPages v) :
    Reserved kernStart kernEnd totalPages v ⟨v, []⟩ :=
  ⟨h.tables, h.writable, fun _ hn => absurd hn List.not_mem_nil, Or.inl rfl⟩

/-- The page that an allocation takes was free. -/
theorem allocPage_free (h : TablesOk kernStart kernEnd totalPages v) {g : Nat} (hpos : 0 < g)
    (haddr : v.allocPage.1 = g * pageSize) : bitmapTest v.pmm g = false := by
  rcases v.allocPage_cases h.sane.placed.total with ⟨hzero, -⟩ | ⟨i, hphys, -, ha⟩
  · rw [haddr] at hzero
    simp only [pageSize] at hzero
    omega
  · have hig : i = g := by
      rw [haddr] at hphys
      simp only [pageSize] at hphys
      omega
    subst hig
    exact ha.free i (Nat.le_refl i) (by omega)

/-- A page keeps its frame when another one is mapped. -/
theorem Reserved.other {w : Vm} {g : Nat} (h : Reserved kernStart kernEnd totalPages v q)
    (hnew : Mm.NewFrame kernStart kernEnd totalPages q.vm w g) (hne : m ≠ n)
    (hm : .mapped m ∈ q.trace) : ∃ x,
      (pagingMapPage w (n * 4096) (g * pageSize) elfFlags).2.MapsTo m x ∧
      FreshPage kernStart kernEnd totalPages
        (pagingMapPage w (n * 4096) (g * pageSize) elfFlags).2 x ∧
      (pagingMapPage w (n * 4096) (g * pageSize) elfFlags).2.Grants (m * 4096) pdeWritable := by
  have hlimit := hnew.tablesOk.sane.limit
  have hrange := hnew.fresh.inRange
  obtain ⟨x, hmap, hx, hgrant⟩ := h.pages m hm
  have htable : q.vm.HasTable (Mm.pdIndex (m * 4096)) := Mm.page_pdIndex ▸ hmap.1
  have htable' : w.HasTable (Mm.pdIndex (m * 4096)) :=
    (Mm.hasTable_congr (congrFun hnew.same.1 _)).mpr htable
  refine ⟨x, ?_, ((hnew.keeps x hx).1.fresh.mapPage hnew.tablesOk).fresh, ?_⟩
  · have hmap' := hnew.same.mapsTo.mpr hmap
    rcases @Mm.mapsTo_mapPage _ _ _ n w elfFlags g hnew.tablesOk hnew.fresh.pos (by omega) with
      ⟨-, hsame⟩ | ⟨-, hsame⟩
    · exact (hsame m x).mpr hmap'
    · exact (hsame m x).mpr (Or.inr ⟨hne, hmap'⟩)
  · exact (Mm.mapPage_grants hnew.tablesOk htable' (by omega)).mpr
      ((hnew.same.grants htable).mpr hgrant)

/-- One page more. -/
theorem Reserved.map (h : Reserved kernStart kernEnd totalPages v q)
    (hsome : q.vm.allocPage.1 ≠ 0) :
    Reserved kernStart kernEnd totalPages v
      ⟨(pagingMapPage q.vm.allocPage.2 (n * 4096) q.vm.allocPage.1 elfFlags).2,
        if (pagingMapPage q.vm.allocPage.2 (n * 4096) q.vm.allocPage.1 elfFlags).1 = 0 then
          .mapped n :: q.trace else q.trace⟩ := by
  obtain ⟨g, haddr, hnew⟩ := h.tables.newFrame hsome
  have hlimit := hnew.tablesOk.sane.limit
  have hrange := hnew.fresh.inRange
  have hfree := allocPage_free (g := g) h.tables hnew.fresh.pos haddr
  have hw : TablesWritable q.vm.allocPage.2 :=
    h.writable.enters (Mm.enters_of_pd Mm.allocPage_kernelPd)
  have hfresh : FreshPage kernStart kernEnd totalPages
      (pagingMapPage q.vm.allocPage.2 (n * 4096) (g * pageSize) elfFlags).2 g :=
    (hnew.fresh.mapPage hnew.tablesOk).fresh
  rw [haddr]
  refine ⟨hnew.tablesOk.mapPage, hw.enters (Mm.enters_mapPage hnew.tablesOk), ?_, ?_⟩
  · intro m hm
    dsimp only at hm ⊢
    rcases @Mm.mapsTo_mapPage _ _ _ n q.vm.allocPage.2 elfFlags g hnew.tablesOk hnew.fresh.pos
      (by omega) with ⟨hfail, -⟩ | ⟨hdone, hsame⟩
    · rw [if_neg (by omega)] at hm
      refine h.other hnew ?_ hm
      rintro rfl
      -- the page has a page table, so it cannot fail
      obtain ⟨x, hmap, -, -⟩ := h.pages m hm
      have htable : q.vm.HasTable (Mm.pdIndex (m * 4096)) := Mm.page_pdIndex ▸ hmap.1
      have hdone := @Mm.mapPage_present _ _ _ _ (g * pageSize) _ elfFlags hnew.tablesOk
        (Mm.hasTable_allocPage.mpr htable)
      omega
    · rw [if_pos hdone] at hm
      by_cases hmn : m = n
      · subst hmn
        refine ⟨g, (hsame m g).mpr (Or.inl ⟨rfl, rfl⟩), hfresh, ?_⟩
        exact ((Mm.mapPage_mapsEntry hnew.tablesOk hdone).writable hw).mpr (by decide)
      · refine h.other hnew hmn ?_
        rcases List.mem_cons.mp hm with heq | hm
        · cases heq
          exact absurd rfl hmn
        · exact hm
  · rcases h.taken with hv | ⟨hfirst, x, hx, hxfresh⟩
    · rw [hv] at hsome hfree
      exact Or.inr ⟨hsome, g, hfree, hfresh⟩
    · refine Or.inr ⟨hfirst, x, hx, ?_⟩
      exact ((hnew.keeps x hxfresh).1.fresh.mapPage hnew.tablesOk).fresh

/-! The load runs along with its page loops. -/

/-- The load has mapped the same pages, and memory differs in their contents only. -/
structure Follows (kernStart kernEnd totalPages : Nat) (v : Vm) (f : ElfFile) (q r : ElfRun) :
    Prop where
  alike : Alike kernStart kernEnd totalPages q.vm r.vm
  mapped : ∀ n, .mapped n ∈ r.trace ↔ .mapped n ∈ q.trace
  confined : Confined v f r.trace

theorem Follows.ownPage (h : Follows kernStart kernEnd totalPages v f q r) :
    OwnPage v r.trace a ↔ OwnPage v q.trace a := and_congr_left' (h.mapped _)

theorem Follows.read (h : Follows kernStart kernEnd totalPages v f q r) (hin : f.Has off len) :
    Follows kernStart kernEnd totalPages v f q (r.read off len) := by
  refine ⟨h.alike, ?_, hin, h.confined⟩
  intro n
  rw [← h.mapped n]
  exact List.mem_cons.trans (or_iff_right nofun)

/-- When a page cannot be had, nothing may have been taken before. -/
theorem Reserved.released_iff (hq : Reserved kernStart kernEnd totalPages v q)
    (h : Alike kernStart kernEnd totalPages q.vm u) (hv : TablesOk kernStart kernEnd totalPages v)
    (hzero : q.vm.allocPage.1 = 0) : Released v u.allocPage.2 ↔ v.allocPage.1 = 0 := by
  obtain ⟨hphys, halike⟩ := h.allocPage hq.tables
  obtain ⟨hok, hsame, -⟩ := hq.tables.allocPage
  have htotal := hv.sane.total
  have hbits : ∀ j < totalPages, bitmapTest u.allocPage.2.pmm j = bitmapTest q.vm.pmm j := by
    intro j hj
    rw [halike.test hok hj]
    rcases q.vm.allocPage_cases hq.tables.sane.placed.total with ⟨-, hpmm⟩ | ⟨i, hi, -, ha⟩
    · rw [hpmm]
    · have hpos := ha.nonzero
      rw [hzero] at hi
      simp only [pageSize] at hi
      omega
  rcases hq.taken with hsame' | ⟨hfirst, g, hfree, hfresh⟩
  · rw [hsame'] at hzero hbits hsame halike
    refine iff_of_true ⟨fun j hj => hbits j (htotal ▸ hj), fun a => ?_⟩ hzero
    exact halike.sameTables.getPhys.trans hsame.getPhys
  · refine iff_of_false (fun hreleased => ?_) hfirst
    have hrange := hfresh.inRange
    have hbit := hreleased.pages g (htotal.symm ▸ hrange)
    rw [hbits g hrange, hfresh.used, hfree] at hbit
    cases hbit

/-- How the page loop of a segment ends, in the load and alone. -/
inductive MapsAlong (kernStart kernEnd totalPages : Nat) (v : Vm) (f : ElfFile) :
    ElfEnd × ElfRun → ElfEnd × ElfRun → Prop
  | next (q r : ElfRun) (hq : Reserved kernStart kernEnd totalPages v q)
    (h : Follows kernStart kernEnd totalPages v f q r) :
    MapsAlong kernStart kernEnd totalPages v f (.next, q) (.next, r)
  | noPage (q r : ElfRun) (hconf : Confined v f r.trace)
    (hreleased : Released v r.vm ↔ v.allocPage.1 = 0) :
    MapsAlong kernStart kernEnd totalPages v f (.returns (-5), q) (.returns (-5), r)

theorem elfMapPages_along (hv : TablesOk kernStart kernEnd totalPages v)
    (hq : Reserved kernStart kernEnd totalPages v q)
    (h : Follows kernStart kernEnd totalPages v f q r) (hph : ph.vaddr < 2 ^ 32) :
    MapsAlong kernStart kernEnd totalPages v f (elfMapPages ph n p q) (elfMapPages ph n p r) := by
  induction n generalizing p q r with
  | zero => exact .next q r hq h
  | succ n ih =>
    obtain ⟨hphys, halike⟩ := h.alike.allocPage hq.tables
    unfold elfMapPages
    dsimp only
    rw [hphys]
    by_cases hzero : q.vm.allocPage.1 = 0
    · rw [if_pos hzero, if_pos hzero]
      exact .noPage _ _ h.confined (hq.released_iff h.alike hv hzero)
    · rw [if_neg hzero, if_neg hzero]
      have hpage := @pageAddr_page p ph hph
      have hmap := @Reserved.map _ _ _ (ph.pageAddr p / pageSize) _ _ hq hzero
      rw [hpage] at hmap
      obtain ⟨hresult, halike'⟩ := @Alike.mapPage _ _ _ (ph.pageAddr p) q.vm.allocPage.1 _ _
        elfFlags halike hq.tables.allocPage.1
      refine ih hmap ⟨halike', ?_, ?_⟩
      · intro m
        dsimp only
        rw [hresult]
        split_ifs
        · rw [List.mem_cons, List.mem_cons, h.mapped]
        · exact h.mapped m
      · dsimp only
        split_ifs
        · exact h.confined
        · exact h.confined

/-! `memset` and `memcpy` inside the pages of the load. -/

theorem Follows.writeByte {b : BitVec 8} (hq : Reserved kernStart kernEnd totalPages v q)
    (h : Follows kernStart kernEnd totalPages v f q r) (ha : OwnPage v q.trace a) :
    ∃ vm, Mm.writeByte current faults r.vm a b = some vm ∧
      Follows kernStart kernEnd totalPages v f q ⟨vm, .store a :: r.trace⟩ := by
  obtain ⟨g, hmap, hfresh, hgrant⟩ := hq.pages _ ha.1
  have hw : q.vm.Writable a :=
    ⟨hmap.present, (Mm.grants_samePage (by omega)).mp hgrant⟩
  obtain ⟨t, hwrite, halike⟩ := @Alike.writeByte _ _ _ a g faults _ _ b current h.alike hmap hfresh hw
  refine ⟨t, hwrite, halike, ?_, h.ownPage.mpr ha, h.confined⟩
  intro n
  rw [← h.mapped n]
  exact List.mem_cons.trans (or_iff_right nofun)

theorem elfWrite_along (hq : Reserved kernStart kernEnd totalPages v q)
    (h : Follows kernStart kernEnd totalPages v f q r)
    (hown : ∀ j, i ≤ j → j < i + n → OwnPage v q.trace (u32 (dst + j))) :
    ∃ r', elfWrite current faults dst byte n i r = (.next, r') ∧
      Follows kernStart kernEnd totalPages v f q r' := by
  induction n generalizing i r with
  | zero => exact ⟨r, rfl, h⟩
  | succ n ih =>
    obtain ⟨vm, hwrite, hnext⟩ := @Follows.writeByte _ _ _ _ faults _ _ _ _ current (byte i) hq h
      (hown i (Nat.le_refl i) (by omega))
    unfold elfWrite
    dsimp only
    rw [hwrite]
    exact ih hnext fun j hlo hhi => hown j (by omega) (by omega)

/-- A write outside the pages of the load is in the trace. -/
theorem own_of_confined (hq : Reserved kernStart kernEnd totalPages v q)
    (h : Follows kernStart kernEnd totalPages v f q r)
    (hconf : Confined v f (elfWrite current faults dst byte n i r).2.trace) :
    ∀ j, i ≤ j → j < i + n → OwnPage v q.trace (u32 (dst + j)) := by
  induction n generalizing i r with
  | zero =>
    intro j hlo hhi
    omega
  | succ n ih =>
    intro j hlo hhi
    have hfirst : OwnPage v q.trace (u32 (dst + i)) := by
      rw [← h.ownPage]
      refine (hconf.suffix (l := .store (u32 (dst + i)) :: r.trace) ?_).1
      unfold elfWrite
      dsimp only
      split
      case h_1 => exact List.suffix_rfl
      case h_2 vm _ => exact suffix_write (r := ⟨vm, .store (u32 (dst + i)) :: r.trace⟩)
    obtain ⟨vm, hwrite, hnext⟩ := @Follows.writeByte _ _ _ _ faults _ _ _ _ current (byte i) hq h
      hfirst
    by_cases hji : j = i
    · rw [hji]
      exact hfirst
    · unfold elfWrite at hconf
      dsimp only at hconf
      rw [hwrite] at hconf
      exact ih hnext hconf j (by omega) (by omega)

/-! A segment. -/

theorem addr_own : (∀ j < n, OwnPage v l (ph.addr j)) ↔
    ∀ j, 0 ≤ j → j < 0 + n → OwnPage v l (u32 (ph.vaddr + j)) := by
  constructor
  · intro hown j _ hj
    exact hown j (by omega)
  · intro hown j hj
    exact hown j (Nat.zero_le j) (by omega)

theorem elfFill_along (hq : Reserved kernStart kernEnd totalPages v q)
    (h : Follows kernStart kernEnd totalPages v f q r) (hfill : FillConfined v f i q.trace) :
    ∃ r', elfFill current faults f i r = (.next, r') ∧
      Follows kernStart kernEnd totalPages v f q r' := by
  obtain ⟨hsize, hcopy⟩ := hfill
  unfold elfFill
  dsimp only
  by_cases hempty : (f.ph i).filesz = 0
  · rw [if_pos hempty]
    exact ⟨_, rfl, h.read hsize⟩
  rw [if_neg hempty]
  obtain ⟨hoffset, hdata⟩ := hcopy hempty
  by_cases hin : u32 ((f.ph i).offset + (f.ph i).filesz) ≤ f.size
  · rw [if_pos hin]
    obtain ⟨hread, hown⟩ := hdata hin
    exact elfWrite_along hq (((h.read hsize).read hoffset).read hread) (addr_own.mp hown)
  · rw [if_neg hin]
    exact ⟨_, rfl, (h.read hsize).read hoffset⟩

theorem fill_of_confined (hq : Reserved kernStart kernEnd totalPages v q)
    (h : Follows kernStart kernEnd totalPages v f q r)
    (hconf : Confined v f (elfFill current faults f i r).2.trace) :
    FillConfined v f i q.trace := by
  unfold elfFill at hconf
  dsimp only at hconf
  by_cases hempty : (f.ph i).filesz = 0
  · rw [if_pos hempty] at hconf
    exact ⟨hconf.1, fun hne => absurd hempty hne⟩
  rw [if_neg hempty] at hconf
  by_cases hin : u32 ((f.ph i).offset + (f.ph i).filesz) ≤ f.size
  · rw [if_pos hin] at hconf
    unfold elfCopy at hconf
    obtain ⟨hread, hoffset, hsize, -⟩ := hconf.suffix suffix_write
    have hown := own_of_confined hq (((h.read hsize).read hoffset).read hread) hconf
    exact ⟨hsize, fun _ => ⟨hoffset, fun _ => ⟨hread, addr_own.mpr hown⟩⟩⟩
  · rw [if_neg hin] at hconf
    exact ⟨hconf.2.1, fun _ => ⟨hconf.1, fun hle => absurd hle hin⟩⟩

/-- The zeros and the data of a segment. -/
theorem elfClear_along (hq : Reserved kernStart kernEnd totalPages v q)
    (h : Follows kernStart kernEnd totalPages v f q r)
    (hown : ∀ j < (f.ph i).memsz, OwnPage v q.trace ((f.ph i).addr j))
    (hfill : FillConfined v f i q.trace) :
    ∃ r', andThen (elfClear current faults (f.ph i) r)
        (fun r => elfFill current faults f i r) = (.next, r') ∧
      Follows kernStart kernEnd totalPages v f q r' := by
  obtain ⟨r₁, hclear, h₁⟩ := @elfWrite_along _ _ _ 0 (f.ph i).memsz faults (f.ph i).vaddr _ _ _ _
    (fun _ => 0) current hq h (addr_own.mp hown)
  unfold elfClear
  rw [hclear]
  exact elfFill_along hq h₁ hfill

theorem clear_of_confined (hq : Reserved kernStart kernEnd totalPages v q)
    (h : Follows kernStart kernEnd totalPages v f q r)
    (hconf : Confined v f (andThen (elfClear current faults (f.ph i) r)
      (fun r => elfFill current faults f i r)).2.trace) :
    (∀ j < (f.ph i).memsz, OwnPage v q.trace ((f.ph i).addr j)) ∧
      FillConfined v f i q.trace := by
  have hclear : Confined v f (elfClear current faults (f.ph i) r).2.trace :=
    hconf.suffix (suffix_andThen List.suffix_rfl fun _ => suffix_fill)
  have hown := own_of_confined hq h hclear
  refine ⟨addr_own.mpr hown, ?_⟩
  obtain ⟨r₁, hrun, h₁⟩ := @elfWrite_along _ _ _ 0 (f.ph i).memsz faults (f.ph i).vaddr _ _ _ _
    (fun _ => 0) current hq h hown
  unfold elfClear at hconf
  rw [hrun] at hconf
  exact fill_of_confined hq h₁ hconf

theorem elfReserve_load (hreserve : elfReserve v f i = (.next, q))
    (hload : (f.ph i).type = ptLoad) :
    elfReserve v f (i + 1) = elfMapPages (f.ph i) (f.ph i).pages 0 q := by
  rw [elfReserve, hreserve]
  exact if_neg (not_not.mpr hload)

theorem elfReserve_skip (hreserve : elfReserve v f i = (.next, q))
    (htype : (f.ph i).type ≠ ptLoad) : elfReserve v f (i + 1) = (.next, q) := by
  rw [elfReserve, hreserve]
  exact if_pos htype

/-- A step is confined, and an error leaves no page behind. -/
structure Good (v : Vm) (f : ElfFile) (s : ElfEnd × ElfRun) : Prop where
  confined : Confined v f s.2.trace
  released : ∀ code, s.1 = .returns code → Released v s.2.vm

/-- How a segment is loaded, when its page loop alone ends with `s`. -/
inductive LoadsAlong (kernStart kernEnd totalPages : Nat) (v : Vm) (f : ElfFile) (i : Nat)
    (s t : ElfEnd × ElfRun) : Prop
  | next (q r : ElfRun) (hs : s = (.next, q)) (ht : t = (.next, r))
    (hq : Reserved kernStart kernEnd totalPages v q)
    (h : Follows kernStart kernEnd totalPages v f q r) (hsegment : SegmentConfined v f i)
  | noPage (hs : s.1 ≠ .next) (ht : t.1 ≠ .next) (hgood : Good v f t ↔ SegmentConfined v f i)
  | leaves (hconf : ¬ Confined v f t.2.trace) (hsegment : ¬ SegmentConfined v f i)

theorem elfLoadSegment_along (hv : TablesOk kernStart kernEnd totalPages v)
    (hq : Reserved kernStart kernEnd totalPages v q)
    (h : Follows kernStart kernEnd totalPages v f q r)
    (hreserve : elfReserve v f i = (.next, q)) (hload : (f.ph i).type = ptLoad) :
    LoadsAlong kernStart kernEnd totalPages v f i (elfReserve v f (i + 1))
      (elfLoadSegment current faults f i r) := by
  by_cases hfields : f.Has (f.phdr i + 8) 4 ∧ f.Has (f.phdr i + 20) 4
  case neg =>
    refine .leaves (fun hconf => hfields ?_) fun hsegment => hfields ⟨hsegment.1, hsegment.2.1⟩
    have hread := hconf.suffix (suffix_andThen suffix_mapPages fun _ =>
      suffix_andThen suffix_write fun _ => suffix_fill)
    exact ⟨hread.2.1, hread.1⟩
  obtain ⟨hvaddr, hmemsz⟩ := hfields
  have halong := @elfMapPages_along _ _ _ (f.ph i).pages 0 v f (f.ph i) q _ hv hq
    ((h.read hvaddr).read hmemsz) word_lt
  have hloop := elfReserve_load hreserve hload
  have hsegment : SegmentConfined v f i ↔ PagesConfined v f i (elfReserve v f (i + 1)) := by
    unfold SegmentConfined
    rw [and_iff_right hvaddr, and_iff_right hmemsz]
  rw [hloop] at hsegment ⊢
  unfold elfLoadSegment
  generalize elfMapPages (f.ph i) (f.ph i).pages 0 q = s at halong hsegment ⊢
  generalize elfMapPages (f.ph i) (f.ph i).pages 0
    ((r.read (f.phdr i + 8) 4).read (f.phdr i + 20) 4) = t at halong ⊢
  cases halong with
  | next q' r₁ hq' h₁ =>
    by_cases hyes : SegmentConfined v f i
    · obtain ⟨hown, hfill⟩ := hsegment.mp hyes
      obtain ⟨r', hrun, h'⟩ := @elfClear_along _ _ _ i faults _ _ _ _ current hq' h₁ hown hfill
      exact .next q' r' rfl hrun hq' h' hyes
    · refine .leaves (fun hconf => hyes (hsegment.mpr ?_)) hyes
      exact clear_of_confined hq' h₁ hconf
  | noPage q' r₁ hconf hreleased =>
    refine .noPage nofun nofun ?_
    have hpages : PagesConfined v f i (.returns (-5), q') ↔ v.allocPage.1 = 0 := Iff.rfl
    rw [hsegment, hpages, ← hreleased]
    constructor
    · intro hgood
      exact hgood.released _ rfl
    · intro hrel
      exact ⟨hconf, fun _ _ => hrel⟩

/-! The loop over the headers. -/

theorem andThen_stop {step : ElfEnd × ElfRun} {k : ElfRun → ElfEnd × ElfRun}
    (h : step.1 ≠ .next) : andThen step k = step := by
  obtain ⟨e, r⟩ := step
  cases e with
  | next => exact absurd rfl h
  | returns code => rfl
  | stuck => rfl

theorem elfReserve_stop (h : (elfReserve v f i).1 ≠ .next) (hik : i ≤ k) :
    (elfReserve v f k).1 ≠ .next := by
  induction k, hik using Nat.le_induction with
  | base => exact h
  | succ k hik ih =>
    rw [elfReserve]
    generalize elfReserve v f k = s at ih
    obtain ⟨e, q⟩ := s
    cases e with
    | next => exact absurd rfl ih
    | returns code => exact ih
    | stuck => exact ih

/-- The headers from `i` on that the page loops reach are confined. -/
theorem reached_succ (hreserve : elfReserve v f i = (.next, q)) :
    (∀ k, i ≤ k → k < i + (n + 1) → (elfReserve v f k).1 = .next → HeaderConfined v f k) ↔
      HeaderConfined v f i ∧
        ∀ k, i + 1 ≤ k → k < i + 1 + n → (elfReserve v f k).1 = .next → HeaderConfined v f k := by
  constructor
  · intro hall
    refine ⟨hall i (Nat.le_refl i) (by omega) (by rw [hreserve]), ?_⟩
    intro k hlo hhi
    exact hall k (by omega) (by omega)
  · rintro ⟨hfirst, hrest⟩ k hlo hhi hreached
    by_cases hki : k = i
    · rw [hki]
      exact hfirst
    · exact hrest k (by omega) (by omega) hreached

theorem elfLoadHeaders_good (hv : TablesOk kernStart kernEnd totalPages v)
    (hq : Reserved kernStart kernEnd totalPages v q)
    (h : Follows kernStart kernEnd totalPages v f q r)
    (hreserve : elfReserve v f i = (.next, q)) :
    Good v f (elfLoadHeaders current faults f n i r) ↔
      ∀ k, i ≤ k → k < i + n → (elfReserve v f k).1 = .next → HeaderConfined v f k := by
  induction n generalizing i q r with
  | zero =>
    refine iff_of_true ⟨h.confined, nofun⟩ ?_
    intro k hlo hhi
    omega
  | succ n ih =>
    rw [reached_succ hreserve]
    by_cases hhas : f.Has (f.phdr i) 4
    case neg =>
      refine iff_of_false (fun hgood => hhas ?_) fun hboth => hhas hboth.1.1
      refine (hgood.confined.suffix (l := (r.read (f.phdr i) 4).trace) ?_).1
      unfold elfLoadHeaders
      dsimp only
      split
      case isTrue => exact suffix_headers
      case isFalse => exact suffix_andThen suffix_segment fun _ => suffix_headers
    have hread := h.read hhas
    unfold elfLoadHeaders
    dsimp only
    by_cases htype : (f.ph i).type ≠ ptLoad
    · rw [if_pos htype, ih hq hread (elfReserve_skip hreserve htype), and_iff_right]
      exact ⟨hhas, fun hload => absurd hload htype⟩
    · rw [if_neg htype]
      have hload := not_not.mp htype
      have hheader : HeaderConfined v f i ↔ SegmentConfined v f i := by
        unfold HeaderConfined
        rw [and_iff_right hhas, imp_iff_right hload]
      rw [hheader]
      cases @elfLoadSegment_along _ _ _ i faults _ _ _ _ current hv hq hread hreserve hload with
      | next q' r' hs ht hq' h' hsegment =>
        rw [ht, and_iff_right hsegment]
        exact ih hq' h' hs
      | noPage hs ht hgood =>
        rw [andThen_stop ht, hgood, and_iff_left]
        intro k hlo _ hreached
        exact absurd hreached (elfReserve_stop hs hlo)
      | leaves hconf hsegment =>
        refine iff_of_false (fun hgood => hconf ?_) fun hboth => hsegment hboth.1
        exact hgood.confined.suffix (suffix_andThen List.suffix_rfl fun _ => suffix_headers)

/-! The whole load. -/

theorem has_header (hsize : ¬ f.size < elfHeaderSize) (hlen : off + len ≤ elfHeaderSize) :
    f.Has off len := by
  unfold elfHeaderSize at hsize hlen
  unfold ElfFile.Has
  rw [Mm.u32_of_lt (by omega)]
  omega

/-- A file that the header checks refuse: they read the ELF header only. -/
theorem elfConfines_rejected (hrej : f.Rejected) :
    ElfConfines v f (elf32Load current faults v (some f) entryOut) := by
  have hsame : Released v v := ⟨fun _ _ => rfl, fun _ => rfl⟩
  unfold elf32Load
  dsimp only
  by_cases hsize : f.size < elfHeaderSize
  · rw [if_pos hsize]
    exact ⟨trivial, fun _ _ _ => hsame⟩
  rw [if_neg hsize]
  have h0 := @has_header 0 4 f hsize (by decide)
  have h16 := @has_header 16 2 f hsize (by decide)
  have h18 := @has_header 18 2 f hsize (by decide)
  obtain ⟨code, -, r', hcheck⟩ := @checkHeader_rejected f ⟨v, []⟩ hsize hrej
  rw [hcheck]
  unfold elfCheckHeader at hcheck
  dsimp only at hcheck
  split_ifs at hcheck
  · cases hcheck
    exact ⟨⟨h0, trivial⟩, fun _ _ _ => hsame⟩
  · cases hcheck
    exact ⟨⟨h16, h0, trivial⟩, fun _ _ _ => hsame⟩
  · cases hcheck
    exact ⟨⟨h18, h16, h0, trivial⟩, fun _ _ _ => hsame⟩
  · cases hcheck

/-- The header checks read inside the file. -/
theorem confined_headerRun (hrej : ¬ f.Rejected) : Confined v f (headerRun v).trace := by
  have hsize : ¬ f.size < elfHeaderSize := fun hlt => hrej (Or.inl hlt)
  exact ⟨has_header hsize (by decide), has_header hsize (by decide), has_header hsize (by decide),
    has_header hsize (by decide), has_header hsize (by decide), trivial⟩

theorem elfConfines_of (hrej : ¬ f.Rejected) {s : ElfEnd × ElfRun}
    (hcode : ∀ code, s.1 = .returns code → code < 0) :
    ElfConfines v f (.of f entryOut s) ↔ Good v f s := by
  have hsize : ¬ f.size < elfHeaderSize := fun hlt => hrej (Or.inl hlt)
  obtain ⟨e, r⟩ := s
  cases e with
  | next =>
    constructor
    · intro h
      exact ⟨h.confined.2, nofun⟩
    · intro h
      refine ⟨⟨has_header hsize (by decide), h.confined⟩, ?_⟩
      · rintro code hneg hzero
        cases hzero
        exact absurd hneg (lt_irrefl 0)
  | returns code =>
    constructor
    · intro h
      refine ⟨h.confined, ?_⟩
      rintro _ ⟨⟩
      exact h.released code (hcode code rfl) rfl
    · intro h
      refine ⟨h.confined, ?_⟩
      rintro _ - ⟨⟩
      exact h.released code rfl
  | stuck =>
    constructor
    · intro h
      exact ⟨h.confined, nofun⟩
    · intro h
      exact ⟨h.confined, nofun⟩

/-- A load keeps to the file and to its own pages, and releases them after an error, exactly when
every header that is reached allows it. -/
theorem elfConfines_iff (h : Directory kernStart kernEnd totalPages v) :
    ElfConfines v f (elf32Load current faults v (some f) entryOut) ↔ f.Confinable v := by
  by_cases hrej : f.Rejected
  · exact iff_of_true (elfConfines_rejected hrej) (Or.inl hrej)
  have hstart : Follows kernStart kernEnd totalPages v f ⟨v, []⟩ (headerRun v) := by
    refine ⟨Alike.refl v, ?_, confined_headerRun hrej⟩
    intro n
    unfold headerRun ElfRun.read
    simp
  have hends := @ends_headers 0 f.ePhnum faults f (headerRun v) current
  rw [elf32Load_passed hrej, elfConfines_of hrej,
    elfLoadHeaders_good h.tables (reserved_start h) hstart rfl]
  · unfold ElfFile.Confinable
    rw [or_iff_right hrej, Nat.zero_add]
    constructor
    · intro hall i hi
      exact hall i (Nat.zero_le i) hi
    · intro hall k _ hk
      exact hall k hk
  · intro code hcode
    rcases hends with hnext | hstuck | hfail
    · rw [hnext] at hcode
      cases hcode
    · rw [hstuck] at hcode
      cases hcode
    · rw [hfail] at hcode
      cases hcode
      decide

theorem elfConfines_byteSegment : ElfConfines (Mm.smallVm fun _ => false) (byteSegments 1)
    (elf32Load none 0 (Mm.smallVm fun _ => false) (some (byteSegments 1)) true) := by
  refine (elfConfines_iff Mm.directory_smallVm).mpr ?_
  rw [Mm.smallVm_eq]
  decide +kernel

/-- A file with one segment, of one byte at 0x300000, which is the kernel's. -/
def kernelSegment : ElfFile where
  data off := (([(0, 0x7F), (1, 0x45), (2, 0x4C), (3, 0x46), (16, 2), (18, 3), (28, 52), (44, 1),
    (52, 1), (62, 0x30), (72, 1)] : List (Nat × BitVec 8)).lookup off).getD 0
  size := 84
  size_lt := by decide

/-- `paging_map_page` fails in a 4 MB page, and the byte is written all the same. -/
theorem not_elfConfines_kernelSegment :
    ¬ ∀ (kernStart kernEnd totalPages : Nat) (current : Option Process) (faults : Nat) (v : Vm)
      (f : ElfFile) (entryOut : Bool), Directory kernStart kernEnd totalPages v →
        ElfConfines v f (elf32Load current faults v (some f) entryOut) := by
  intro hall
  have hdir := @Mm.directory_smallVm fun _ => false
  have hload := hall _ _ _ none 0 _ kernelSegment true hdir
  have htrace : .store 0x300000 ∈
        (elf32Load none 0 (Mm.smallVm fun _ => false) (some kernelSegment) true).run.trace ∧
      .mapped (0x300000 / 4096) ∉
        (elf32Load none 0 (Mm.smallVm fun _ => false) (some kernelSegment) true).run.trace := by
    rw [Mm.smallVm_eq]
    decide +kernel
  exact htrace.2 (hload.store_mapped htrace.1)

end PinguinOS.Ipc
