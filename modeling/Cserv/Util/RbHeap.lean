import Cserv.Foundations.Zipper

/-!
# Red-black trees in memory

`rbtree.h` and `rbtree.c` on nodes in memory, with the colour in the low bit of the parent
pointer. A function fails, with `none`, where the source dereferences `NULL` or memory that
holds no node, and where a loop has more rounds than `fuel` allows. The two sides of a node
are treated alike in the source, so that each mirrored pair of statements is one definition
over a `Side`.
-/
namespace Cserv.Util

open Foundations

/-- A pointer to a node, and an `unsigned long`. -/
abbrev Addr := BitVec 64

def NULL : Addr := 0

def RB_RED : Addr := 0
def RB_BLACK : Addr := 1

structure RbNode where
  rbParentColor : Addr
  rbLeft : Addr
  rbRight : Addr
  deriving DecidableEq, Repr

namespace RbNode

variable (n : RbNode)

def rbParent : Addr := n.rbParentColor &&& ~~~3

def rbColor : Addr := n.rbParentColor &&& 1

def rbIsRed : Bool := n.rbColor = 0

def rbSetRed : RbNode := { n with rbParentColor := n.rbParentColor &&& ~~~1 }

def rbSetBlack : RbNode := { n with rbParentColor := n.rbParentColor ||| 1 }

def rbSetParent (p : Addr) : RbNode := { n with rbParentColor := (n.rbParentColor &&& 3) ||| p }

def rbSetColor (color : Addr) : RbNode :=
  { n with rbParentColor := (n.rbParentColor &&& ~~~1) ||| color }

def child : Side → Addr
  | .left => n.rbLeft
  | .right => n.rbRight

def setChild (a : Addr) : Side → RbNode
  | .left => { n with rbLeft := a }
  | .right => { n with rbRight := a }

end RbNode

/-- The nodes in memory, and the cells `struct rb_root`, which `ι` names. -/
structure RbHeap (ι : Type) where
  node : Addr → Option RbNode
  root : ι → Addr

namespace RbHeap

variable {ι : Type} (m : RbHeap ι)

/-- The node a pointer is dereferenced to. -/
def load (x : Addr) : Option RbNode := if x = NULL then none else m.node x

def store (x : Addr) (n : RbNode) : RbHeap ι :=
  { m with node := Function.update m.node x (some n) }

def modify (x : Addr) (f : RbNode → RbNode) : Option (RbHeap ι) := do
  let n ← m.load x
  return m.store x (f n)

/-- `x && rb_is_red(x)`. -/
def isRed (x : Addr) : Option Bool :=
  if x = NULL then some false else (m.load x).map RbNode.rbIsRed

/-- `if (x) rb_set_parent(x, p)`. -/
def reparent (x p : Addr) : Option (RbHeap ι) :=
  if x = NULL then some m else m.modify x (·.rbSetParent p)

def leftmost : ℕ → Addr → Option Addr
  | 0, _ => none
  | fuel + 1, x => do
    let n ← m.load x
    if n.rbLeft = NULL then some x else leftmost fuel n.rbLeft

variable [DecidableEq ι]

def setRoot (i : ι) (x : Addr) : RbHeap ι := { m with root := Function.update m.root i x }

/-- The link of `parent` to `old`, or the root without a parent, is set to `new`. The child on
side `s` is looked at first. -/
def relink (s : Side) (parent old new : Addr) (i : ι) : Option (RbHeap ι) :=
  if parent = NULL then some (m.setRoot i new)
  else do
    let p ← m.load parent
    if old = p.child s then m.modify parent (·.setChild new s)
    else m.modify parent (·.setChild new s.flip)

/-- `__rb_rotate_left` for the left side, `__rb_rotate_right` for the right: `node` goes down
on side `s`, and its child on the other side takes its place. -/
def rbRotate (s : Side) (node : Addr) (i : ι) : Option (RbHeap ι) := do
  let n ← m.load node
  let other := n.child s.flip
  let parent := n.rbParent
  let o ← m.load other
  let m ← m.modify node (·.setChild (o.child s) s.flip)
  let m ← m.reparent (o.child s) node
  let m ← m.modify other (·.setChild node s)
  let m ← m.modify other (·.rbSetParent parent)
  let m ← m.relink s parent node other i
  m.modify node (·.rbSetParent other)

/-! ## Insertion -/

/-- A pointer to a pointer: to the root, or to a child link of a node. -/
inductive Link (ι : Type)
  | root (i : ι)
  | child (x : Addr) (s : Side)
  deriving DecidableEq, Repr

def setLink (x : Addr) : Link ι → Option (RbHeap ι)
  | .root i => some (m.setRoot i x)
  | .child p s => m.modify p (·.setChild x s)

def rbLinkNode (node parent : Addr) (link : Link ι) : Option (RbHeap ι) := do
  let m ← m.modify node (fun _ => ⟨parent, NULL, NULL⟩)
  m.setLink node link

/-- The body of the loop of `rb_insert_color` for a parent on side `s` of the grandparent: the
node of the next round, and the memory. -/
def insertCase (s : Side) (node parent gparent : Addr) (i : ι) : Option (Addr × RbHeap ι) := do
  let g ← m.load gparent
  let uncle := g.child s.flip
  if ← m.isRed uncle then
    let m ← m.modify uncle (·.rbSetBlack)
    let m ← m.modify parent (·.rbSetBlack)
    let m ← m.modify gparent (·.rbSetRed)
    return (gparent, m)
  else
    let p ← m.load parent
    let (node, parent, m) ← if p.child s.flip = node then do
      let m ← m.rbRotate s parent i
      some (parent, node, m)
    else some (node, parent, m)
    let m ← m.modify parent (·.rbSetBlack)
    let m ← m.modify gparent (·.rbSetRed)
    let m ← m.rbRotate s.flip gparent i
    return (node, m)

/-- The loop of `rb_insert_color`. -/
def insertLoop (i : ι) : ℕ → Addr → RbHeap ι → Option (RbHeap ι)
  | 0, _, _ => none
  | fuel + 1, node, m => do
    let n ← m.load node
    let parent := n.rbParent
    if parent = NULL then some m
    else
      let p ← m.load parent
      if p.rbIsRed then
        let gparent := p.rbParent
        let g ← m.load gparent
        let s := if parent = g.rbLeft then Side.left else Side.right
        let next ← m.insertCase s node parent gparent i
        insertLoop i fuel next.1 next.2
      else some m

def rbInsertColor (fuel : ℕ) (node : Addr) (i : ι) : Option (RbHeap ι) := do
  let m ← insertLoop i fuel node m
  m.modify (m.root i) (·.rbSetBlack)

/-! ## Removal -/

/-- The first `if` in the loop of `__rb_erase_color`, for a node on side `s` of `parent`: the
sibling, which is black then, and the memory. -/
def siblingCase (s : Side) (parent : Addr) (i : ι) : Option (Addr × RbHeap ι) := do
  let p ← m.load parent
  let other := p.child s.flip
  let o ← m.load other
  if o.rbIsRed then
    let m ← m.modify other (·.rbSetBlack)
    let m ← m.modify parent (·.rbSetRed)
    let m ← m.rbRotate s parent i
    let p ← m.load parent
    return (p.child s.flip, m)
  else return (other, m)

/-- The last case of the loop of `__rb_erase_color`: `other` has a red child. -/
def borrowCase (s : Side) (parent other : Addr) (i : ι) : Option (RbHeap ι) := do
  let o ← m.load other
  let far ← m.isRed (o.child s.flip)
  let (other, m) ← if far then some (other, m) else do
    let m ← m.modify (o.child s) (·.rbSetBlack)
    let m ← m.modify other (·.rbSetRed)
    let m ← m.rbRotate s.flip other i
    let p ← m.load parent
    some (p.child s.flip, m)
  let p ← m.load parent
  let m ← m.modify other (·.rbSetColor p.rbColor)
  let m ← m.modify parent (·.rbSetBlack)
  let o ← m.load other
  let m ← m.modify (o.child s.flip) (·.rbSetBlack)
  m.rbRotate s parent i

/-- The loop of `__rb_erase_color`: its last `node`, and the memory. -/
def eraseLoop (i : ι) : ℕ → Addr → Addr → RbHeap ι → Option (Addr × RbHeap ι)
  | 0, _, _, _ => none
  | fuel + 1, node, parent, m => do
    let red ← m.isRed node
    if red ∨ node = m.root i then some (node, m)
    else
      let p ← m.load parent
      let s := if p.rbLeft = node then Side.left else Side.right
      let (other, m) ← m.siblingCase s parent i
      let o ← m.load other
      let left ← m.isRed o.rbLeft
      let right ← m.isRed o.rbRight
      if !left && !right then
        let m ← m.modify other (·.rbSetRed)
        let p ← m.load parent
        eraseLoop i fuel parent p.rbParent m
      else
        let m ← m.borrowCase s parent other i
        some (m.root i, m)

def rbEraseColor (fuel : ℕ) (node parent : Addr) (i : ι) : Option (RbHeap ι) := do
  let (node, m) ← eraseLoop i fuel node parent m
  if node = NULL then some m else m.modify node (·.rbSetBlack)

/-- The label `out` of `rb_erase`. -/
def eraseOut (fuel : ℕ) (color child parent : Addr) (i : ι) : Option (RbHeap ι) :=
  if color = RB_BLACK then m.rbEraseColor fuel child parent i else some m

/-- `rb_erase` of a node with one child at most. -/
def eraseOne (fuel : ℕ) (node child : Addr) (i : ι) : Option (RbHeap ι) := do
  let n ← m.load node
  let parent := n.rbParent
  let m ← m.reparent child parent
  let m ← m.relink .left parent node child i
  m.eraseOut fuel n.rbColor child parent i

/-- The next node `node` leaves its place below `old`, or keeps its child when it is a child
of `old` itself: the parent of the empty place, and the memory. -/
def unlinkNext (old node : Addr) : Option (Addr × RbHeap ι) := do
  let n ← m.load node
  let child := n.rbRight
  let parent := n.rbParent
  if parent = old then some (node, m)
  else
    let m ← m.reparent child parent
    let m ← m.modify parent (·.setChild child .left)
    let o ← m.load old
    let m ← m.modify node (·.setChild o.rbRight .right)
    let m ← m.modify o.rbRight (·.rbSetParent node)
    some (parent, m)

/-- The next node takes the place of `old`, with its children, parent and colour. -/
def moveNext (old node : Addr) : Option (Addr × RbHeap ι) := do
  let (parent, m) ← m.unlinkNext old node
  let o ← m.load old
  let m ← m.modify node fun n => { n with rbParentColor := o.rbParentColor }
  let m ← m.modify node (·.setChild o.rbLeft .left)
  let m ← m.modify o.rbLeft (·.rbSetParent node)
  return (parent, m)

/-- `rb_erase` of a node with two children. -/
def eraseTwo (fuel : ℕ) (old : Addr) (i : ι) : Option (RbHeap ι) := do
  let o ← m.load old
  let node ← m.leftmost fuel o.rbRight
  let m ← m.relink .left o.rbParent old node i
  let n ← m.load node
  let (parent, m) ← m.moveNext old node
  m.eraseOut fuel n.rbColor n.rbRight parent i

def rbErase (fuel : ℕ) (node : Addr) (i : ι) : Option (RbHeap ι) := do
  let n ← m.load node
  if n.rbLeft = NULL then m.eraseOne fuel node n.rbRight i
  else if n.rbRight = NULL then m.eraseOne fuel node n.rbLeft i
  else m.eraseTwo fuel node i

def rbFirst (fuel : ℕ) (i : ι) : Option Addr :=
  if m.root i = NULL then some NULL else m.leftmost fuel (m.root i)

end RbHeap

end Cserv.Util
