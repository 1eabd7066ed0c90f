import SpinGlass.Hamiltonian
import SpinGlass.Lib.KeepFirst

/-!
# Reading — what the constructor has read

The file seen without the constructor's tables: `couplingLines` lists the
site names and the coupling of every line that is read as an edge with a
non-zero coupling, `siteNames` the names on them in the order in which
they first appear. `Reads st ls` says that the constructor's local
variables hold exactly this for the lines `ls`; `readFile_reads` proves it of
every file on which the reading loop comes to an end.
-/

namespace SpinGlass

open Text KeepFirst CountedLoop

variable {K : Type}

/-! ## The file, as names and couplings -/

/-- The tokens of a line. -/
def tokens (inputStr : Str) : List Str := getlines ' ' inputStr

/-- The site names and the coupling on a line, if it is read as an edge with a
non-zero coupling. -/
def couplingLine [Field K] [LinearOrder K] (stod : Str → Option K) (inputStr : Str) :
    Option (List Str × K) :=
  if admitted inputStr then
    match (tokens inputStr).getLast?.bind stod with
    | some val => if val ≠ 0 then some ((tokens inputStr).dropLast, val) else none
    | none => none
  else none

def couplingLines [Field K] [LinearOrder K] (stod : Str → Option K) (text : Str) :
    List (List Str × K) :=
  (getlines '\n' text).filterMap (couplingLine stod)

/-- The site names on `ls`, in the order of first appearance. -/
def siteNames (ls : List (List Str × K)) : List Str :=
  keepFirst id (ls.flatMap Prod.fst)

/-- The number of a site: its place among the names, as an `unsigned`. -/
def siteNumber (names : List Str) (site : Str) : ℕ := names.idxOf site % 2 ^ 32

/-- The edge that a line stands for. -/
def numbered (names : List Str) (l : List Str × K) : EdgeType K :=
  ((l.1.map (siteNumber names)).insertionSort (· ≤ ·), l.2)

/-- The constructor's local variables after the lines `ls`. -/
structure Reads (st : ReadState K) (ls : List (List Str × K)) : Prop where
  index : st.index = (siteNames ls).zipIdx.map fun p => (p.1, p.2 % 2 ^ 32)
  size : st.N = (siteNames ls).length
  edges : st.edges = keepFirst Prod.fst (ls.map (numbered (siteNames ls)))
  edgeSet : st.edgeSet = st.edges.map fun e => tostring e.1

/-! ## Numbering -/

/-- `index` and `N` when the names in `names` have been seen. -/
def Indexed (st : ReadState K) (names : List Str) : Prop :=
  st.index = names.zipIdx.map (fun p => (p.1, p.2 % 2 ^ 32)) ∧ st.N = names.length

theorem lookup_zipIdx_map (names : List Str) (site : Str) (k : ℕ) :
    ((names.zipIdx k).map fun p => (p.1, p.2 % 2 ^ 32)).lookup site
      = if site ∈ names then some ((k + names.idxOf site) % 2 ^ 32) else none := by
  induction names generalizing k with
  | nil => rfl
  | cons name names ih =>
      rw [List.zipIdx_cons, List.map_cons, List.lookup_cons]
      by_cases h : site = name
      · subst h
        simp
      · have hb : (site == name) = false := by simpa using h
        rw [hb]
        simp only [ih (k + 1), List.mem_cons, h, false_or]
        rw [List.idxOf_cons_ne _ (Ne.symm h), show k + 1 + names.idxOf site
          = k + (names.idxOf site + 1) from by omega]

/-- One token: the name is added unless it is known, and its number is read off. -/
theorem indexSite_spec {st : ReadState K} {seen : List Str}
    (h : Indexed st (keepFirst id seen)) (site : Str) :
    ∃ st', indexSite site st = (siteNumber (keepFirst id (seen ++ [site])) site, st')
      ∧ Indexed st' (keepFirst id (seen ++ [site]))
      ∧ st'.edges = st.edges ∧ st'.edgeSet = st.edgeSet := by
  obtain ⟨hidx, hN⟩ := h
  have hlook : st.index.lookup site
      = if site ∈ keepFirst id seen
        then some (siteNumber (keepFirst id seen) site) else none := by
    rw [hidx, lookup_zipIdx_map, Nat.zero_add]
    rfl
  rw [keepFirst_concat, List.map_id, id_eq]
  by_cases hs : site ∈ keepFirst id seen
  · rw [if_pos hs] at hlook ⊢
    exact ⟨st, by rw [indexSite, hlook], ⟨hidx, hN⟩, rfl, rfl⟩
  · rw [if_neg hs] at hlook ⊢
    have hnum : siteNumber (keepFirst id seen ++ [site]) site = st.N % 2 ^ 32 := by
      rw [siteNumber, List.idxOf_append_of_notMem hs, hN]
      simp
    rw [hnum]
    refine ⟨{ st with
        index := st.index ++ [(site, st.N % 2 ^ 32)]
        N := st.N + 1 }, by rw [indexSite, hlook], ⟨?_, ?_⟩, rfl, rfl⟩
    · simp [hidx, hN, List.zipIdx_append]
    · simp [hN]

/-- The number of a name does not change as more names are seen. -/
theorem siteNumber_append {seen more : List Str} {site : Str} (h : site ∈ seen) :
    siteNumber (keepFirst id (seen ++ more)) site = siteNumber (keepFirst id seen) site := by
  obtain ⟨extra, he⟩ : ∃ extra, keepFirst id (seen ++ more) = keepFirst id seen ++ extra :=
    keepFirst_append seen more
  have hs : site ∈ keepFirst id seen := mem_keepFirst_id.mpr h
  rw [he, siteNumber, siteNumber, List.idxOf_append_of_mem hs]

/-! ## One line -/

/-- Errors the constructor is allowed: a token that is no number, and a loop
without end. -/
def ReadFault (e : Fault) : Prop := e = .invalidArgument ∨ e = .outOfFuel

/-- What the loop over the sites of a line has made of its first sites `done`,
after the sites `seen` on earlier lines. -/
structure SitesRead (seen : List Str) (st : ReadState K) (done : List Str)
    (r : List ℕ × ReadState K) : Prop where
  first : r.1 = done.map (siteNumber (keepFirst id (seen ++ done)))
  indexed : Indexed r.2 (keepFirst id (seen ++ done))
  edges : r.2.edges = st.edges
  edgeSet : r.2.edgeSet = st.edgeSet

theorem SitesRead.concat {seen done : List Str} {st : ReadState K} {r : List ℕ × ReadState K}
    (h : SitesRead seen st done r) (site : Str) :
    SitesRead seen st (done ++ [site])
      (r.1 ++ [(indexSite site r.2).1], (indexSite site r.2).2) := by
  obtain ⟨st', hsite, hidx, hedges, hset⟩ := indexSite_spec h.indexed site
  rw [List.append_assoc] at hsite hidx
  rw [hsite]
  refine ⟨?_, hidx, by rw [hedges, h.edges], by rw [hset, h.edgeSet]⟩
  have hmap : done.map (siteNumber (keepFirst id (seen ++ done)))
      = done.map (siteNumber (keepFirst id (seen ++ (done ++ [site])))) := by
    rw [← List.append_assoc]
    exact List.map_congr_left fun x hx =>
      (siteNumber_append (List.mem_append_right _ hx)).symm
  rw [h.first, hmap, List.map_append, List.map_singleton]

/-- The sites of a line are numbered in the order in which they stand on it. -/
theorem readSites_spec (fuel : ℕ) {input : List Str} (hne : input ≠ []) {st : ReadState K}
    {seen : List Str} (h : Indexed st (keepFirst id seen)) :
    Meets (readSites fuel input st) ReadFault (SitesRead seen st input.dropLast) := by
  have hlen : 0 < input.length := List.length_pos_iff.mpr hne
  have hpred : pred64 input.length = input.length - 1 := pred64_of_pos hlen
  -- a line too long for the counter never ends: nothing is claimed of it but safety
  have hloop : Meets (readSites fuel input st) ReadFault (fun r =>
      pred64 input.length < 2 ^ 32 → SitesRead seen st (input.take (pred64 input.length)) r) := by
    refine meets_forUnsigned (fun i r => pred64 input.length < 2 ^ 32 →
        SitesRead seen st (input.take i) r) (Or.inr rfl) ?_ ?_ ?_
    · intro hw r _ hlt
      omega
    · intro i r hi hP
      have hil : i < input.length := by omega
      have htake : input.take (i + 1) = input.take i ++ [input[i]] :=
        (List.take_append_getElem hil).symm
      rw [readSite, load_of_lt hil, ok_bind, htake]
      by_cases hlt : pred64 input.length < 2 ^ 32
      · exact fun _ => (hP hlt).concat input[i]
      · exact fun hc => absurd hc hlt
    · exact fun _ => ⟨rfl, by simpa using h, rfl, rfl⟩
  rw [hpred, ← List.dropLast_eq_take] at hloop
  cases hr : readSites fuel input st with
  | error e => exact hloop.of_error hr
  | ok r =>
      have hlt := (forUnsigned_ok_iff.mp hr).1
      rw [hpred] at hlt
      exact hloop.of_ok hr hlt

theorem tostring_inj {u v : List ℕ} : tostring u = tostring v ↔ u = v :=
  ⟨numeralKey_inj, fun h => by rw [h]⟩

theorem siteNames_concat (ls : List (List Str × K)) (l : List Str × K) :
    siteNames (ls ++ [l]) = keepFirst id (ls.flatMap Prod.fst ++ l.1) := by
  simp [siteNames]

/-- The edge of a line does not change as more lines are read. -/
theorem numbered_concat {ls : List (List Str × K)} {l : List Str × K} (h : l ∈ ls)
    (l' : List Str × K) :
    numbered (siteNames (ls ++ [l'])) l = numbered (siteNames ls) l := by
  have hmap : l.1.map (siteNumber (siteNames (ls ++ [l'])))
      = l.1.map (siteNumber (siteNames ls)) := by
    rw [siteNames_concat]
    exact List.map_congr_left fun x hx =>
      siteNumber_append (List.mem_flatMap.mpr ⟨l, h, hx⟩)
  rw [numbered, numbered, hmap]

/-- An edge whose sites have just been numbered is kept unless its site numbers
have been met before. -/
theorem Reads.addEdge {st : ReadState K} {ls : List (List Str × K)} (h : Reads st ls)
    {l : List Str × K} {r : List ℕ × ReadState K}
    (hr : SitesRead (ls.flatMap Prod.fst) st l.1 r) (inputStr : Str) :
    Reads (addEdge inputStr (r.1.insertionSort (· ≤ ·), l.2) r.2) (ls ++ [l]) := by
  have hnames := siteNames_concat ls l
  have hedge : (r.1.insertionSort (· ≤ ·), l.2) = numbered (siteNames (ls ++ [l])) l := by
    rw [numbered, hnames, hr.first]
  have hold : ls.map (numbered (siteNames (ls ++ [l]))) = ls.map (numbered (siteNames ls)) :=
    List.map_congr_left fun x hx => numbered_concat hx l
  have hmark : tostring (r.1.insertionSort (· ≤ ·)) ∈ r.2.edgeSet
      ↔ r.1.insertionSort (· ≤ ·) ∈ st.edges.map Prod.fst := by
    rw [hr.edgeSet, h.edgeSet]
    simp only [List.mem_map, tostring_inj]
  have hkeep : keepFirst Prod.fst ((ls ++ [l]).map (numbered (siteNames (ls ++ [l]))))
      = keepFirst Prod.fst (ls.map (numbered (siteNames ls))
        ++ [(r.1.insertionSort (· ≤ ·), l.2)]) := by
    rw [List.map_append, List.map_singleton, hold, ← hedge]
  rw [SpinGlass.addEdge]
  by_cases hm : r.1.insertionSort (· ≤ ·) ∈ st.edges.map Prod.fst
  · rw [if_pos (hmark.mpr hm)]
    rw [keepFirst_concat_of_mem (by rwa [← h.edges]), ← h.edges] at hkeep
    refine ⟨by rw [hnames]; exact hr.indexed.1, by rw [hnames]; exact hr.indexed.2, ?_, ?_⟩
    · rw [hkeep]
      exact hr.edges
    · show r.2.edgeSet = r.2.edges.map _
      rw [hr.edgeSet, hr.edges, h.edgeSet]
  · rw [if_neg (fun hc => hm (hmark.mp hc))]
    rw [keepFirst_concat_of_notMem (by rwa [← h.edges]), ← h.edges] at hkeep
    refine ⟨by rw [hnames]; exact hr.indexed.1, by rw [hnames]; exact hr.indexed.2, ?_, ?_⟩
    · rw [hkeep, ← hr.edges]
    · show r.2.edgeSet ++ [_] = (r.2.edges ++ [_]).map _
      rw [hr.edgeSet, hr.edges, h.edgeSet, List.map_append, List.map_singleton]

variable [Field K] [LinearOrder K]

/-- A line that is read has a token. -/
theorem tokens_ne_nil {inputStr : Str} (h : admitted inputStr = true) :
    tokens inputStr ≠ [] := by
  apply getlines_ne_nil
  intro hnil
  simp [admitted, hnil] at h

theorem load_last {α : Type} {xs : List α} (h : xs ≠ []) :
    load xs (pred64 xs.length) = .ok (xs.getLast h) := by
  have hlen : 0 < xs.length := List.length_pos_iff.mpr h
  rw [pred64_of_pos hlen, load_of_lt (by omega), List.getLast_eq_getElem]

theorem readEdge_reads (fuel : ℕ) (stod : Str → Option K) {st : ReadState K}
    {ls : List (List Str × K)} (h : Reads st ls) {inputStr : Str}
    (hadm : admitted inputStr = true) :
    Meets (readEdge fuel stod st inputStr) ReadFault
      (fun st' => Reads st' (ls ++ (couplingLine stod inputStr).toList)) := by
  have hne := tokens_ne_nil hadm
  rw [couplingLine, if_pos hadm, List.getLast?_eq_getLast_of_ne_nil hne, Option.bind_some]
  show Meets (load (tokens inputStr) (pred64 (tokens inputStr).length) >>= _) _ _
  rw [load_last hne, ok_bind]
  cases hval : stod ((tokens inputStr).getLast hne) with
  | none => exact Or.inl rfl
  | some val =>
      by_cases hz : val ≠ 0
      · simp only [if_pos hz, Option.toList_some]
        have hidx : Indexed st (keepFirst id (ls.flatMap Prod.fst)) := ⟨h.index, h.size⟩
        apply (readSites_spec fuel hne hidx).bind
        intro r hr
        exact h.addEdge (l := ((tokens inputStr).dropLast, val)) hr inputStr
      · simp only [if_neg hz, Option.toList_none, List.append_nil]
        exact h

/-- **One line of the file**: the line is added if it is read as an edge with a
non-zero coupling, and nothing else changes. -/
theorem readLine_reads (fuel : ℕ) (stod : Str → Option K) {st : ReadState K}
    {ls : List (List Str × K)} (h : Reads st ls) (inputStr : Str) :
    Meets (readLine fuel stod st inputStr) ReadFault
      (fun st' => Reads st' (ls ++ (couplingLine stod inputStr).toList)) := by
  have hbody : Meets (if admitted inputStr then readEdge fuel stod st inputStr else .ok st)
      ReadFault (fun st' => Reads st' (ls ++ (couplingLine stod inputStr).toList)) := by
    by_cases hadm : admitted inputStr = true
    · rw [if_pos hadm]
      exact readEdge_reads fuel stod h hadm
    · rw [if_neg hadm, couplingLine, if_neg hadm]
      simpa using h
  apply hbody.bind
  intro st' h'
  exact ⟨h'.index, h'.size, h'.edges, h'.edgeSet⟩

/-- **The whole file**: when the reading loop ends, the constructor holds the
coupling lines of the file; otherwise `std::stod` threw or a line was too long. -/
theorem readFile_reads (fuel : ℕ) (stod : Str → Option K) (text : Str) :
    Meets (readFile fuel stod text) ReadFault
      (fun st => Reads st (couplingLines stod text)) := by
  refine meets_foldlM (fun done st => Reads st (done.filterMap (couplingLine stod)))
    _ ?_ ⟨rfl, rfl, rfl, rfl⟩
  intro done line rest _ st h
  apply (readLine_reads fuel stod h line).mono (fun _ he => he)
  intro st' h'
  rw [List.filterMap_append]
  cases hl : couplingLine stod line with
  | none => simpa [hl] using h'
  | some l => simpa [hl] using h'

end SpinGlass
