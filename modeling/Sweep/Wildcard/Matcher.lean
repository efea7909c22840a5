import Sweep.Wildcard.Expression
/-!
# Matching several patterns in one reading

The ways of an expression are kept in a trie, so that those with a common beginning are followed as
one. The text is read once, and the marks of the trie show how far the patterns have come: a mark is
reached if the marks down to it stand for what has been read. Where nothing is reached, nothing is
looked at.
-/

namespace Sweep.Wildcard

/-- Lists of marks that share their beginnings, with what is reached of them. -/
inductive Trie where
  | nil
  /-- One of the lists ends here. -/
  | done (beside : Trie)
  /-- The lists that go on with a mark, and those beside them. The mark shows whether it is reached,
  and whether a mark below it is. -/
  | mark (m : Mark) (reached alive : Bool) (below beside : Trie)
  deriving DecidableEq, Repr

namespace Trie

/-- The trie with one more list of marks. -/
def add : List Mark → Trie → Trie
  | [], nil => done nil
  | [], done beside => done beside
  | [], mark m reached alive below beside => mark m reached alive below (add [] beside)
  | m :: ms, nil => mark m false false (add ms nil) nil
  | m :: ms, done beside => done (add (m :: ms) beside)
  | m :: ms, mark n reached alive below beside =>
    if m = n then mark n reached alive (add ms below) beside
    else mark n reached alive below (add (m :: ms) beside)

/-- The trie of some lists of marks. -/
def ofLists : List (List Mark) → Trie
  | [] => nil
  | ms :: lists => (ofLists lists).add ms

/-- Whether a mark of the trie is reached. -/
def isAlive : Trie → Bool
  | nil => false
  | done beside => beside.isAlive
  | mark _ reached alive _ beside => reached || alive || beside.isAlive

/-- The trie before anything is read, when the mark above is reached or not. -/
def start (above : Bool) : Trie → Trie
  | nil => nil
  | done beside => done (beside.start above)
  | mark m _ _ below beside =>
    let reached := above && m == .run
    let below := below.start reached
    mark m reached below.isAlive below (beside.start above)

/-- The trie after one more character, when the mark above was reached or not, and is now. A run
stays reached; another mark is reached from the one above it by its character. -/
def step (c : Char) (was now : Bool) : Trie → Trie
  | nil => nil
  | done beside => done (beside.step c was now)
  | mark m reached alive below beside =>
    let next := if m = .run then reached || now else was && m.takes c
    let beside := beside.step c was now
    if reached || next || alive then
      let below := below.step c reached next
      mark m next below.isAlive below beside
    else mark m false false below beside

/-- Whether a list of the trie ends where it is reached. -/
def isDone (above : Bool) : Trie → Bool
  | nil => false
  | done beside => above || beside.isDone above
  | mark _ reached _ below beside => below.isDone reached || beside.isDone above

/-- Whether a list of the trie stands for the rest of the text. What is above the trie is reached
before the first character only. -/
def accepts (above : Bool) (tr : Trie) : Text → Bool
  | [] => tr.isDone above
  | c :: t => (tr.step c above false).accepts false t

end Trie

/-- A trie to start with. -/
structure Matcher where
  trie : Trie
  deriving DecidableEq, Repr

namespace Matcher

/-- The matcher of an expression. -/
def ofExpression (e : Expression) : Matcher := ⟨(Trie.ofLists e.ways).start true⟩

/-- Whether the expression stands for the whole text. -/
def accepts (m : Matcher) (t : Text) : Bool := m.trie.accepts true t

end Matcher

end Sweep.Wildcard
