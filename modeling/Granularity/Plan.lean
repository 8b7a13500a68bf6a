import Granularity.Context.Operation

/-!
Plans: sequences of operations that look at the state between their steps.

A plan belongs to one transaction.  It may look at the stored state, make remarks, and perform
operations; a performed operation may have to wait, and the rest of the plan is carried on when the
operation has been granted.  What a plan does after a look is a function of what it saw.
-/

namespace Granularity

/-- The steps that a transaction still has to take. -/
inductive Plan where
  /-- Nothing is left to do. -/
  | done
  /-- The plan cannot be carried on. -/
  | fail (refusal : Refusal)
  /-- Go on as the stored state requires. -/
  | look (next : Store → Plan)
  /-- Make a remark and go on. -/
  | say (remark : Remark) (next : Plan)
  /-- Perform an operation, wait until it is granted, and go on. -/
  | perform (operation : Operation) (next : Plan)

namespace Plan

/-- The plan of a single operation. -/
def ask (operation : Operation) : Plan :=
  perform operation done

/-- Two plans one after the other; a failure of the first is the end. -/
def andThen : Plan → Plan → Plan
  | done, second => second
  | fail refusal, _ => fail refusal
  | look next, second => look fun store => (next store).andThen second
  | say remark next, second => say remark (next.andThen second)
  | perform operation next, second => perform operation (next.andThen second)

/-- The operations in order. -/
def ofList (operations : List Operation) : Plan :=
  operations.foldr perform done

end Plan

end Granularity
