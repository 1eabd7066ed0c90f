import SpinGlass.Exec
import SpinGlass.Lib.Text
import Mathlib.Algebra.Field.Rat
import Mathlib.Algebra.Order.Ring.Rat
import Mathlib.Data.List.Sort

/-!
# Hamiltonian — `hamiltonian_type` and its constructor

The constructor reads the file line by line (`readFile`), numbering the
sites in the order in which they appear and collecting the edges, and
then hands every edge to each of its sites (`fillNodes`). The file is
given as the text it holds; `stod` is `std::stod`, which either converts
a token or throws.

Hash sets of strings are lists, `std::map` is an association list; both
are only ever searched and added to.
-/

namespace SpinGlass

open Text

abbrev Str := List Char

/-- `edge_type`: the numbers of the sites and the coupling. -/
abbrev EdgeType (K : Type) := List ℕ × K

abbrev NodeType (K : Type) := List (EdgeType K)

structure HamiltonianType (K : Type) where
  nodes_ : List (NodeType K)
  deriving DecidableEq, Repr

def HamiltonianType.size {K : Type} (H : HamiltonianType K) : ℕ := H.nodes_.length

/-- `tostring`: each number in decimal, followed by a blank. -/
def tostring (vec : List ℕ) : Str := numeralKey vec

/-- The local variables of the constructor while it reads the file. -/
structure ReadState (K : Type) where
  edgeSet : List Str := []
  N : ℕ := 0
  index : List (Str × ℕ) := []
  count : ℕ := 0
  edges : List (EdgeType K) := []
  /-- What has been written to `std::cout`. -/
  cout : List Str := []

section Construct

variable {K : Type} [Field K] [LinearOrder K]

/-- `if (index.find(site) == index.end()) index[site] = N++;` and the value of
`index[site]` after it. The counter is a `std::size_t`, the number an `unsigned`. -/
def indexSite (site : Str) (st : ReadState K) : ℕ × ReadState K :=
  match st.index.lookup site with
  | some a => (a, st)
  | none =>
      (st.N % 2 ^ 32,
        { st with index := st.index ++ [(site, st.N % 2 ^ 32)], N := st.N + 1 })

/-- One site of the edge: `edge.first.push_back(index[site])`. -/
def readSite (input : List Str) (i : ℕ) (p : List ℕ × ReadState K) :
    Exec (List ℕ × ReadState K) := do
  let site ← load input i
  let (a, st) := indexSite site p.2
  .ok (p.1 ++ [a], st)

/-- The loop over the tokens of a line but the last: the sites of the edge. -/
def readSites (fuel : ℕ) (input : List Str) (st : ReadState K) :
    Exec (List ℕ × ReadState K) :=
  forUnsigned fuel (pred64 input.length) (readSite input) ([], st)

/-- The message about a repeated edge. -/
def duplicateWarning (inputStr : Str) (line : ℕ) : Str :=
  "warning: duplicate edge (".toList ++ inputStr ++ ")   line: ".toList
    ++ Nat.toDigits 10 line

/-- `edges.push_back(edge)`, unless the mark of the edge has been seen. -/
def addEdge (inputStr : Str) (edge : EdgeType K) (st : ReadState K) : ReadState K :=
  if tostring edge.1 ∈ st.edgeSet then
    { st with cout := st.cout ++ [duplicateWarning inputStr (st.count + 1)] }
  else
    { st with
      edges := st.edges ++ [edge]
      edgeSet := st.edgeSet ++ [tostring edge.1] }

/-- The lines that are read as edges. -/
def admitted (inputStr : Str) : Bool := ' ' ∈ inputStr ∧ '#' ∉ inputStr

/-- A line that is read as an edge: the last token is its coupling. -/
def readEdge (fuel : ℕ) (stod : Str → Option K) (st : ReadState K) (inputStr : Str) :
    Exec (ReadState K) := do
  let input := getlines ' ' inputStr
  let last ← load input (pred64 input.length)
  match stod last with
  | none => .error .invalidArgument
  | some val =>
      if val ≠ 0 then do
        let (first, st) ← readSites fuel input st
        .ok (addEdge inputStr (first.insertionSort (· ≤ ·), val) st)
      else .ok st

/-- One line of the file. -/
def readLine (fuel : ℕ) (stod : Str → Option K) (st : ReadState K) (inputStr : Str) :
    Exec (ReadState K) :=
  (if admitted inputStr then readEdge fuel stod st inputStr else .ok st) >>= fun st =>
    .ok { st with count := st.count + 1 }

/-- The loop over the lines of the file. -/
def readFile (fuel : ℕ) (stod : Str → Option K) (text : Str) : Exec (ReadState K) :=
  (getlines '\n' text).foldlM (readLine fuel stod) {}

/-- `nodes_` and `edge_sets` while the nodes are filled. -/
structure FillState (K : Type) where
  nodes : List (NodeType K)
  edgeSets : List (List Str)

/-- `nodes_[a].push_back(edge)`, unless `edge_sets[a]` holds the mark of the edge. -/
def fillNode (edge : EdgeType K) (st : FillState K) (a : ℕ) : Exec (FillState K) := do
  let seen ← load st.edgeSets a
  if tostring edge.1 ∈ seen then .ok st
  else do
    let node ← load st.nodes a
    let nodes ← store st.nodes a (node ++ [edge])
    let edgeSets ← store st.edgeSets a (seen ++ [tostring edge.1])
    .ok { nodes := nodes, edgeSets := edgeSets }

/-- The loop over the edges, and in it over the sites of the edge. -/
def fillNodes (edges : List (EdgeType K)) (st : FillState K) : Exec (FillState K) :=
  edges.foldlM (fun st edge => edge.1.foldlM (fillNode edge) st) st

/-- `hamiltonian_type::hamiltonian_type(file_name)`, on the text of the file. -/
def hamiltonianType (fuel : ℕ) (stod : Str → Option K) (text : Str) :
    Exec (HamiltonianType K) := do
  let st ← readFile fuel stod text
  let filled ← fillNodes st.edges
    { nodes := List.replicate st.N [], edgeSets := List.replicate st.N [] }
  .ok { nodes_ := filled.nodes }

end Construct

/-! ## A sample -/

/-- `std::stod` on the numbers of the shipped lattices: a sign and decimal digits. -/
def stodInteger : Str → Option ℚ
  | '-' :: ds =>
      if ds ≠ [] ∧ ds.all Char.isDigit then some (-(Nat.ofDigitChars 10 ds 0 : ℚ)) else none
  | ds =>
      if ds ≠ [] ∧ ds.all Char.isDigit then some (Nat.ofDigitChars 10 ds 0 : ℚ) else none

/-- A lattice with edges of two arities, a repeated edge, a zero coupling and a line
without sites. -/
def sampleText : Str :=
  "# sample\n7 5 2\n5 7 3\n7 9 0\n4 5 7 -1\n6 \n".toList

def sampleH : HamiltonianType ℚ :=
  { nodes_ := [[([0, 1], 2), ([0, 1, 2], -1)], [([0, 1], 2), ([0, 1, 2], -1)],
      [([0, 1, 2], -1)]] }

example : hamiltonianType 4 stodInteger sampleText = .ok sampleH := by decide

end SpinGlass
