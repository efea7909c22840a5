import Sweep.Path
/-!
# File trees

A tree of files, directories and symbolic links. A path is looked up name by name: a step upward
leads to the directory that the walk came from, and a link is replaced by its target, at most forty
times. A directory that is locked can be found, but nothing in it. A relative path is looked up from
the directory that one is in, and a path that is too long is not looked up at all. `sorted` puts the
entries of every directory in the order of the bytes of their names, and `putAt` grows a tree where
a path leads.
-/

namespace Sweep

/-- What a directory entry is. -/
inductive Node where
  | file (content : List UInt8)
  | directory (entries : List (List UInt8 × Node))
  /-- A directory that may not be opened. -/
  | locked
  | link (target : Path)

namespace Node

/-- An empty directory. -/
def empty : Node := .directory []

/-! ## Order of entries -/

/-- Whether the first name may stand in front of the second. -/
def nameLE (a b : List UInt8) : Bool := (compare a b).isLE

/-- Puts an entry in front of the first one with a greater name. -/
def insertEntry (e : List UInt8 × Node) : List (List UInt8 × Node) → List (List UInt8 × Node)
  | [] => [e]
  | f :: es => if nameLE e.1 f.1 then e :: f :: es else f :: insertEntry e es

mutual

/-- The node with the entries of all directories in order. -/
def sorted : Node → Node
  | .file content => .file content
  | .locked => .locked
  | .link target => .link target
  | .directory es => .directory (sortedEntries es)

/-- The entries in order, each of them sorted. -/
def sortedEntries : List (List UInt8 × Node) → List (List UInt8 × Node)
  | [] => []
  | (name, node) :: es => insertEntry (name, node.sorted) (sortedEntries es)

end

/-! ## Looking up -/

/-- The entry of a name. -/
def named? (name : List UInt8) : List (List UInt8 × Node) → Option Node
  | [] => none
  | (n, node) :: es => if n = name then some node else named? name es

/-- How many links one look-up goes through. -/
def linkLimit : Nat := 40

/-- Walks from the innermost node of a trail along some names. The result is the trail to what was
found; a link at the end is followed only if `follow` is set. -/
def descend (top : Node) (follow : Bool) (links : Nat) (trail : List Node) :
    List (List UInt8) → Option (List Node)
  | [] => some trail
  | name :: names =>
    match trail with
    | .directory es :: above =>
      if name = [] ∨ name = Path.dot then descend top follow links trail names
      else if name = Path.dotDot then
        -- The top is its own parent.
        descend top follow links (if above = [] then trail else above) names
      else
        match named? name es with
        | none => none
        | some (.link target) =>
          if names = [] ∧ ¬follow then some (.link target :: trail)
          else
            match links with
            | 0 => none
            | links + 1 =>
              -- A relative target starts at the directory that holds the link.
              let start := if target.isAbsolute then [top] else trail
              descend top follow links start (Path.segments target.bytes ++ names)
        | some node => descend top follow links (node :: trail) names
    | _ => none
termination_by names => (links, names.length)

/-- What is found at some names below the top; a link at their end is followed only if `follow` is
set. -/
def at? (top : Node) (names : List (List UInt8)) (follow : Bool) : Option Node :=
  (descend top follow linkLimit [top] names).bind List.head?

/-! ## Growing a tree -/

/-- The entries with a node under a name, in place of one that was there. -/
def putEntry (name : List UInt8) (node : Node) :
    List (List UInt8 × Node) → List (List UInt8 × Node)
  | [] => [(name, node)]
  | (n, old) :: es => if n = name then (n, node) :: es else (n, old) :: putEntry name node es

/-- The node with another one at a path of names below it. Directories on the way are made; a
directory that is already there stays. -/
def put (node : Node) : List (List UInt8) → Node → Node
  | [], leaf =>
    match node, leaf with
    | .directory es, .directory _ => .directory es
    | _, _ => leaf
  | name :: names, leaf =>
    let es := match node with
      | .directory es => es
      | _ => []
    let below := (named? name es).getD .empty
    .directory (putEntry name (put below names leaf) es)

/-- What is found at some names below the node, through directories alone. -/
def below? (node : Node) : List (List UInt8) → Option Node
  | [] => some node
  | name :: names =>
    match node with
    | .directory es => (named? name es).bind fun n => below? n names
    | _ => none

/-- A directory of a tree: the names that lead to it, the last one first, and what is there. -/
structure Place where
  trail : List (List UInt8)
  node : Node

/-- The place at the end of a trail. -/
def place (top : Node) (trail : List (List UInt8)) : Place :=
  ⟨trail, (top.below? trail.reverse).getD empty⟩

/-- The names that stand for more than the directory they are looked up in. -/
def withoutDots (names : List (List UInt8)) : List (List UInt8) :=
  names.filter fun n => n ≠ [] && n ≠ Path.dot

/-- The tree with the directories that the way of some names needs, and the names that are left of
the way without links and steps upward. The way starts at the place `here`; a link at its end is
gone through only if `follow` is set. -/
def makeWay (top : Node) (follow : Bool) (links : Nat) (here : Place) :
    List (List UInt8) → Node × List (List UInt8)
  | [] => (top, here.trail.reverse)
  | name :: names =>
    if name = [] ∨ name = Path.dot then makeWay top follow links here names
    else if name = Path.dotDot then makeWay top follow links (top.place here.trail.tail) names
    else
      let trail := name :: here.trail
      match here.node.below? [name] with
      | some (.link target) =>
        if names = [] ∧ ¬follow then (top, trail.reverse)
        else
          match links with
          | 0 => (top, trail.reverse ++ names)
          | links + 1 =>
            let start := if target.isAbsolute then top.place [] else here
            makeWay top follow links start (Path.segments target.bytes ++ names)
      | some node => makeWay top follow links ⟨trail, node⟩ names
      | none =>
        -- The way goes on where nothing is yet; only a step upward could lead back to a link.
        if Path.dotDot ∈ names then
          makeWay (top.put trail.reverse empty) follow links ⟨trail, empty⟩ names
        else (top, trail.reverse ++ withoutDots names)
termination_by names => (links, names.length)

/-- The tree with a node at an absolute path. A file or directory that is put at a link stands where
the link leads, a link takes the place of what was there. -/
def putAt (top : Node) (p : Path) (leaf : Node) : Node :=
  let follow := match leaf with
    | .link _ => false
    | _ => true
  let (top, names) := makeWay top follow linkLimit (top.place []) (Path.segments p.bytes)
  top.put names leaf

end Node

/-- A tree, and the directory in it where relative paths start. -/
structure FileTree where
  top : Node
  here : Path := .root

/-- Without a word about it, relative paths start at the top. -/
instance : Coe Node FileTree := ⟨fun top => { top }⟩

/-- What is found at a path; a link at its end is followed only if `follow` is set. The path must fit
as it is given, however long the directory is that it starts in. -/
def FileTree.find? (tree : FileTree) (p : Path) (follow : Bool) : Option Node :=
  let full := p.within tree.here
  if p.fits && full.isAbsolute then tree.top.at? (Path.segments full.bytes) follow else none

end Sweep
