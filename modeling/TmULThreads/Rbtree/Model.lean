import TmULThreads.Lib.RedBlackBalance
import TmULThreads.Lib.Separation

/-!
# The pointer code of `rbtree.h` and `rbtree.c`

The functions are programs over a memory whose locations are the fields of the nodes and of
the root.  Reading or writing a field of `NULL`, or of anything that is not a node, is a
failure of the program.  Parent and colour of a node are packed into one word, as in the
source.

`__rb_rotate_left` and `__rb_rotate_right` are the same text with left and right exchanged, and
so are the two branches of each loop of the repairs; here they are one definition with a
direction.  A loop takes fuel and fails without it.
-/

namespace TmULThreads
namespace Rbtree

open RedBlackTree Separation

/-- An `unsigned long`, or a pointer. -/
abbrev Word := BitVec 64

/-- `child .left node` is `node->rb_left`, `child .right node` is `node->rb_right`, and `rt node`
is the field `rt` of the `APP_TIMER_T` that a node is part of. -/
inductive Loc where
  | rbParentColor (node : Word)
  | child (d : Dir) (node : Word)
  | rbNode (root : Word)
  | rt (node : Word)
  deriving DecidableEq, Repr

abbrev Code := Prog Loc Word

/-! ## `rbtree.h` -/

def rbRed : Word := 0

def rbBlack : Word := 1

def parentOf (parentColor : Word) : Word := parentColor &&& ~~~3

def colorOf (parentColor : Word) : Word := parentColor &&& 1

def rbParent (r : Word) : Code Word := do
  let w ← load (.rbParentColor r)
  return parentOf w

def rbColor (r : Word) : Code Word := do
  let w ← load (.rbParentColor r)
  return colorOf w

def rbIsRed (r : Word) : Code Bool := do
  let c ← rbColor r
  return c == 0

/-- The setters read the word of a node and write it back. -/
def rbUpdate (f : Word → Word) (r : Word) : Code Unit := do
  let w ← load (.rbParentColor r)
  store (.rbParentColor r) (f w)

def rbSetRed (r : Word) : Code Unit := rbUpdate (fun w => w &&& ~~~1) r

def rbSetBlack (r : Word) : Code Unit := rbUpdate (fun w => w ||| 1) r

def rbSetParent (rb p : Word) : Code Unit := rbUpdate (fun w => (w &&& 3) ||| p) rb

def rbSetColor (rb color : Word) : Code Unit := rbUpdate (fun w => (w &&& ~~~1) ||| color) rb

def rbClearNode (node : Word) : Code Unit := rbSetParent node node

def rbLinkNode (node parent : Word) (link : Loc) : Code Unit := do
  store (.rbParentColor node) parent
  store (.child .right node) 0
  store (.child .left node) 0
  store link node

/-! ## Tests and statements that the functions of `rbtree.c` share -/

/-- `p && rb_is_red(p)`; its negation is `!p || rb_is_black(p)`. -/
def isRedNode (p : Word) : Code Bool :=
  if p = 0 then return false else rbIsRed p

/-- `if (p) …` -/
def unlessNull (p : Word) (act : Code Unit) : Code Unit :=
  if p = 0 then return () else act

/-- Let the pointer to `old`, in its parent or in the root, point to `new`.  The side `d` is
the one that is compared first. -/
def changeChild (d : Dir) (parent old new root : Word) : Code Unit :=
  if parent = 0 then store (.rbNode root) new
  else do
    let p ← load (.child d parent)
    if p = old then store (.child d parent) new else store (.child d.flip parent) new

/-- `while (n->child) n = n->child;` -/
def outermost (d : Dir) : Nat → Word → Code Word
  | 0, _ => failure
  | fuel + 1, n => do
      let p ← load (.child d n)
      if p = 0 then return n else outermost d fuel p

/-! ## Rotations -/

/-- The child on the other side than `d` moves up, and the node becomes its child on the
side `d`. -/
def rotate (d : Dir) (node root : Word) : Code Unit := do
  let right ← load (.child d.flip node)
  let parent ← rbParent node
  let inner ← load (.child d right)
  store (.child d.flip node) inner
  unlessNull inner do
    let inner ← load (.child d right)
    rbSetParent inner node
  store (.child d right) node
  rbSetParent right parent
  changeChild d parent node right root
  rbSetParent node right

def _rbRotateLeft (node root : Word) : Code Unit := rotate .left node root

def _rbRotateRight (node root : Word) : Code Unit := rotate .right node root

/-! ## Insertion -/

/-- A node that is the inner grandchild is rotated above its parent; the two then have
changed their roles. -/
def straighten (d : Dir) (node parent root : Word) : Code (Word × Word) := do
  let inner ← load (.child d.flip parent)
  if inner = node then do
    rotate d parent root
    return (parent, node)
  else return (node, parent)

/-- The body of the loop for a parent on the side `d` of its own parent; the answer is the
node to go on with. -/
def insertCase (d : Dir) (node parent gparent root : Word) : Code Word := do
  let uncle ← load (.child d.flip gparent)
  let red ← isRedNode uncle
  if red then do
    rbSetBlack uncle
    rbSetBlack parent
    rbSetRed gparent
    return gparent
  else do
    let (node, parent) ← straighten d node parent root
    rbSetBlack parent
    rbSetRed gparent
    rotate d.flip gparent root
    return node

def insertLoop (root : Word) : Nat → Word → Code Unit
  | 0, _ => failure
  | fuel + 1, node => do
      let parent ← rbParent node
      let red ← isRedNode parent
      if red then do
        let gparent ← rbParent parent
        let left ← load (.child .left gparent)
        let node ← insertCase (if parent = left then .left else .right) node parent gparent root
        insertLoop root fuel node
      else return ()

def rbInsertColor (fuel : Nat) (node root : Word) : Code Unit := do
  insertLoop root fuel node
  let top ← load (.rbNode root)
  rbSetBlack top

/-! ## Removal -/

/-- A red sibling is rotated above the parent, which has a black one then. -/
def blackSibling (d : Dir) (parent root : Word) : Code Word := do
  let other ← load (.child d.flip parent)
  let red ← rbIsRed other
  if red then do
    rbSetBlack other
    rbSetRed parent
    rotate d parent root
    load (.child d.flip parent)
  else return other

def bothBlack (other : Word) : Code Bool := do
  let left ← load (.child .left other)
  let red ← isRedNode left
  if red then return false
  else do
    let right ← load (.child .right other)
    let red ← isRedNode right
    return !red

/-- A red node that only the near side of the sibling has is rotated above the sibling. -/
def redFar (d : Dir) (parent other root : Word) : Code Word := do
  let far ← load (.child d.flip other)
  let red ← isRedNode far
  if red then return other
  else do
    let near ← load (.child d other)
    rbSetBlack near
    rbSetRed other
    rotate d.flip other root
    load (.child d.flip parent)

/-- With a red node on its far side, the sibling is rotated above the parent. -/
def turnSibling (d : Dir) (parent other root : Word) : Code Unit := do
  let color ← rbColor parent
  rbSetColor other color
  rbSetBlack parent
  let far ← load (.child d.flip other)
  rbSetBlack far
  rotate d parent root

/-- The rest of the body once the sibling is black: the node and the parent to go on with, or
nothing if the loop is left. -/
def borrowFrom (d : Dir) (parent other root : Word) : Code (Option (Word × Word)) := do
  let black ← bothBlack other
  if black then do
    rbSetRed other
    let gparent ← rbParent parent
    return some (parent, gparent)
  else do
    let other ← redFar d parent other root
    turnSibling d parent other root
    return none

/-- The body of the loop for a node on the side `d` of its parent. -/
def eraseCase (d : Dir) (parent root : Word) : Code (Option (Word × Word)) := do
  let other ← blackSibling d parent root
  borrowFrom d parent other root

/-- The answer is the node that is to be blackened. -/
def eraseLoop (root : Word) : Nat → Word → Word → Code Word
  | 0, _, _ => failure
  | fuel + 1, node, parent => do
      let red ← isRedNode node
      if red then return node
      else do
        let top ← load (.rbNode root)
        if node = top then return node
        else do
          let left ← load (.child .left parent)
          let next ← eraseCase (if left = node then .left else .right) parent root
          match next with
          | some (node, parent) => eraseLoop root fuel node parent
          | none => load (.rbNode root)

def _rbEraseColor (fuel : Nat) (node parent root : Word) : Code Unit := do
  let node ← eraseLoop root fuel node parent
  unlessNull node (rbSetBlack node)

/-- What is left to do when a node has been unlinked: the node in its place, its parent, and
the colour that is missing. -/
structure Unlinked where
  child : Word
  parent : Word
  color : Word

/-- A node with at most one child leaves its place to that child. -/
def unlinkNode (node child root : Word) : Code Unlinked := do
  let parent ← rbParent node
  let color ← rbColor node
  unlessNull child (rbSetParent child parent)
  changeChild .left parent node child root
  return ⟨child, parent, color⟩

/-- The successor leaves its own place to its right child, unless it is the right child of
the node whose place it takes. -/
def detachSuccessor (old node child parent : Word) : Code Word :=
  if parent = old then return node
  else do
    unlessNull child (rbSetParent child parent)
    store (.child .left parent) child
    let right ← load (.child .right old)
    store (.child .right node) right
    let right ← load (.child .right old)
    rbSetParent right node
    return parent

/-- A node with two children leaves its place to its successor. -/
def unlinkInner (fuel : Nat) (old right root : Word) : Code Unlinked := do
  let node ← outermost .left fuel right
  let parent ← rbParent old
  changeChild .left parent old node root
  let child ← load (.child .right node)
  let parent ← rbParent node
  let color ← rbColor node
  let parent ← detachSuccessor old node child parent
  let w ← load (.rbParentColor old)
  store (.rbParentColor node) w
  let left ← load (.child .left old)
  store (.child .left node) left
  let left ← load (.child .left old)
  rbSetParent left node
  return ⟨child, parent, color⟩

def unlinkAny (fuel : Nat) (node root : Word) : Code Unlinked := do
  let left ← load (.child .left node)
  let right ← load (.child .right node)
  if left = 0 then unlinkNode node right root
  else if right = 0 then unlinkNode node left root
  else unlinkInner fuel node right root

def rbErase (fuel : Nat) (node root : Word) : Code Unit := do
  let u ← unlinkAny fuel node root
  if u.color = rbBlack then _rbEraseColor fuel u.child u.parent root else return ()

/-! ## Walks -/

/-- `rb_first` goes down on the left side, `rb_last` on the right side. -/
def rbEnd (d : Dir) (fuel : Nat) (root : Word) : Code Word := do
  let n ← load (.rbNode root)
  if n = 0 then return 0 else outermost d fuel n

def rbFirst (fuel : Nat) (root : Word) : Code Word := rbEnd .left fuel root

def rbLast (fuel : Nat) (root : Word) : Code Word := rbEnd .right fuel root

/-- `while ((parent = rb_parent(node)) && node == parent->child) node = parent;` -/
def climb (d : Dir) : Nat → Word → Code Word
  | 0, _ => failure
  | fuel + 1, node => do
      let parent ← rbParent node
      if parent = 0 then return 0
      else do
        let p ← load (.child d parent)
        if node = p then climb d fuel parent else return parent

/-- The neighbour on the side `d`, in the order of the tree. -/
def rbNeighbour (d : Dir) (fuel : Nat) (node : Word) : Code Word := do
  let parent ← rbParent node
  if parent = node then return 0
  else do
    let p ← load (.child d node)
    if p = 0 then climb d fuel node else outermost d.flip fuel p

def rbNext (fuel : Nat) (node : Word) : Code Word := rbNeighbour .right fuel node

def rbPrev (fuel : Nat) (node : Word) : Code Word := rbNeighbour .left fuel node

def rbReplaceNode (victim new root : Word) : Code Unit := do
  let parent ← rbParent victim
  changeChild .left parent victim new root
  let left ← load (.child .left victim)
  unlessNull left (rbSetParent left new)
  let right ← load (.child .right victim)
  unlessNull right (rbSetParent right new)
  let w ← load (.rbParentColor victim)
  store (.rbParentColor new) w
  let right ← load (.child .right victim)
  store (.child .right new) right
  let left ← load (.child .left victim)
  store (.child .left new) left

end Rbtree
end TmULThreads
