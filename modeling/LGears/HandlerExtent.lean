import LGears.Library.Machine

/- The handlers of a program: with-exception-handler, raise and raise-continuable, which save
   and restore the list of exception-handlers by hand, beside the continuations of call/cc. -/
namespace LGears.HandlerExtent
open Machine

/-- Values, as far as calls and the handler list look at them. Procedures of the program are
    points of it; what they have captured is in its store. -/
inductive Value (P D : Type) where
  | data (d : D)
  | proc (p : P)
  | withExceptionHandler
  | raise
  | raiseContinuable
  | callCc
  | cont (k : Nat)

/-- What waits for the value of a call. -/
inductive Frame (P D : Type) where
  | point (p : P)
  /-- (thunk) in with-exception-handler -/
  | thunk (new : Value P D) (parent : List (Value P D))
  /-- ((car handlers) x) in raise -/
  | raised
  /-- ((car handlers) x) in raise-continuable -/
  | continuable (handlers : List (Value P D))
  /-- The continuation that the machine gives the handler of an error. -/
  | vmExit

/-- What the program does at a point. -/
inductive Move (P D : Type) where
  | ret (v : Value P D)
  /-- The call is not in tail position, its value is for the point p. -/
  | call (f : Value P D) (args : List (Value P D)) (p : P)
  | tailCall (f : Value P D) (args : List (Value P D))
  /-- An operation that the machine refuses. -/
  | fail (msg : D)
  | exit

/-- A program with the store M, and the texts of the errors of calls. -/
structure Program (P D M : Type) where
  run : P → List (Value P D) → M → Move P D × M
  message : Value P D → List (Value P D) → D

inductive Control (P D : Type) where
  | apply (f : Value P D) (args : List (Value P D))
  | ret (v : Value P D)

structure State (P D M : Type) where
  control : Control P D
  stack : List (Frame P D)
  handlers : List (Value P D)
  /-- The stacks of the continuations that call/cc has made. -/
  conts : List (List (Frame P D))
  store : M

inductive End (P D : Type) where
  | done (v : Value P D)
  | exited
  | unhandled

section code
variable {P D M : Type} (prog : Program P D M)

/-- IS_FUNC(o) -/
def isFunc : Value P D → Bool
  | .data _ => false
  | _ => true

/-- (push_exception_handler thread msg), and the call of the handler. -/
def pushExceptionHandler (s : State P D M) (msg : D) : Next (State P D M) (End P D) :=
  match s.handlers with
  | [] => .halt .unhandled
  | handler :: rest =>
    if isFunc handler then
      .next { s with
        control := .apply handler [.data msg]
        stack := .vmExit :: s.stack
        handlers := rest }
    else .halt .unhandled

/-- (with-exception-handler new thunk), up to the call of the thunk. -/
def withExceptionHandler (s : State P D M) (new thunk : Value P D) : State P D M :=
  let parent := s.handlers
  { s with
    control := .apply thunk []
    stack := .thunk new parent :: s.stack
    handlers := new :: parent }

/-- (raise x), up to the call of the handler. -/
def raise (s : State P D M) (x : Value P D) : Next (State P D M) (End P D) :=
  match s.handlers with
  | [] => pushExceptionHandler s (prog.message .raise [x])
  | handler :: rest =>
    .next { s with
      control := .apply handler [x]
      stack := .raised :: s.stack
      handlers := rest }

/-- (raise-continuable x), up to the call of the handler. -/
def raiseContinuable (s : State P D M) (x : Value P D) : Next (State P D M) (End P D) :=
  match s.handlers with
  | [] => pushExceptionHandler s (prog.message .raiseContinuable [x])
  | handler :: rest =>
    .next { s with
      control := .apply handler [x]
      stack := .continuable (handler :: rest) :: s.stack
      handlers := rest }

/-- (call/cc f) -/
def callCc (s : State P D M) (f : Value P D) : Next (State P D M) (End P D) :=
  if isFunc f then
    .next { s with
      control := .apply f [.cont s.conts.length]
      conts := s.conts ++ [s.stack] }
  else pushExceptionHandler s (prog.message .callCc [f])

/-- A continuation is unpacked and gets the value; the handlers stay as they are. -/
def callCont (s : State P D M) (k : Nat) (v : Value P D) : Next (State P D M) (End P D) :=
  match s.conts[k]? with
  | some stack => .next { s with control := .ret v, stack := stack }
  | none => .stuck

def perform (s : State P D M) (move : Move P D × M) : Next (State P D M) (End P D) :=
  let s := { s with store := move.2 }
  match move.1 with
  | .ret v => .next { s with control := .ret v }
  | .call f args p => .next { s with control := .apply f args, stack := .point p :: s.stack }
  | .tailCall f args => .next { s with control := .apply f args }
  | .fail msg => pushExceptionHandler s msg
  | .exit => .halt .exited

/-- FUNC_CALL; a wrong number of arguments is an error, as is a call of data. A program that calls
    a pair or a string, where the machine stops for good, has that as its exit. -/
def funcCall (s : State P D M) : Value P D → List (Value P D) → Next (State P D M) (End P D)
  | .proc p, args => perform s (prog.run p args s.store)
  | .withExceptionHandler, [new, thunk] => .next (withExceptionHandler s new thunk)
  | .raise, [x] => raise prog s x
  | .raiseContinuable, [x] => raiseContinuable prog s x
  | .callCc, [f] => callCc prog s f
  | .cont k, [v] => callCont s k v
  | f, args => pushExceptionHandler s (prog.message f args)

/-- What the frame on top of the stack does with the value. -/
def resume (s : State P D M) (v : Value P D) : Next (State P D M) (End P D) :=
  match s.stack with
  | [] => .halt (.done v)
  | .point p :: rest => perform { s with stack := rest } (prog.run p [v] s.store)
  | .thunk _ parent :: rest => .next { s with stack := rest, handlers := parent }
  | .raised :: _ => .halt .exited
  | .continuable handlers :: rest => .next { s with stack := rest, handlers := handlers }
  | .vmExit :: _ => .halt .exited

def step (s : State P D M) : Next (State P D M) (End P D) :=
  match s.control with
  | .apply f args => funcCall prog s f args
  | .ret v => resume prog s v

/-- The program is called with the handlers that are there. -/
def start (main : Value P D) (initial : List (Value P D)) (store : M) : State P D M :=
  { control := .apply main [], stack := [], handlers := initial, conts := [], store := store }

end code

section extents
variable {P D M : Type}

/-- The handlers of the with-exception-handler calls that control is in, innermost first. -/
def extents : List (Frame P D) → List (Value P D)
  | [] => []
  | .thunk new _ :: rest => new :: extents rest
  | _ :: rest => extents rest

def isHandlerFrame : Frame P D → Bool
  | .raised | .continuable _ | .vmExit => true
  | .point _ | .thunk _ _ => false

/-- A handler is running. -/
def inHandler (stack : List (Frame P D)) : Bool := stack.any isHandlerFrame

/-- Outside of running handlers, the handler list is that of the dynamic extent. -/
def Follows (initial : List (Value P D)) (s : State P D M) : Prop :=
  inHandler s.stack = false → s.handlers = extents s.stack ++ initial

/-- A continuation that control is about to enter, if it is not one of a running handler, finds
    the handler list of the extent that it goes back to. -/
def Agrees (initial : List (Value P D)) (s : State P D M) : Prop :=
  ∀ k v stack, s.control = .apply (.cont k) [v] → s.conts[k]? = some stack →
    inHandler stack = false → s.handlers = extents stack ++ initial

/-- The list for a stack, where a running handler has the list behind its own. -/
def pending (initial : List (Value P D)) : List (Frame P D) → List (Value P D)
  | [] => initial
  | .point _ :: rest => pending initial rest
  | .thunk new _ :: rest => new :: pending initial rest
  | _ :: rest => (pending initial rest).tail

end extents

/- What the steps keep. Where all holds the list is followed inside of running handlers too. -/

section invariant
variable {P D M : Type} {prog : Program P D M} {all : Prop} {initial : List (Value P D)}
  {s : State P D M} {frame : Frame P D} {stack : List (Frame P D)}

/-- The list that goes with the stack is followed. -/
def Watched (all : Prop) (stack : List (Frame P D)) : Prop := inHandler stack = true → all

/-- The lists that frames put back are those of the stacks behind them. -/
def Restores (all : Prop) (initial : List (Value P D)) : List (Frame P D) → Prop
  | [] => True
  | .thunk _ parent :: rest =>
    (Watched all rest → parent = pending initial rest) ∧ Restores all initial rest
  | .continuable handlers :: rest =>
    (Watched all rest → handlers = pending initial rest) ∧ Restores all initial rest
  | _ :: rest => Restores all initial rest

structure Kept (all : Prop) (initial : List (Value P D)) (s : State P D M) : Prop where
  follows : Watched all s.stack → s.handlers = pending initial s.stack
  stack : Restores all initial s.stack
  conts : ∀ stack ∈ s.conts, Restores all initial stack

/-- A step to a next state keeps the invariant. -/
def Keeps (all : Prop) (initial : List (Value P D)) (next : Next (State P D M) (End P D)) : Prop :=
  ∀ s, next = .next s → Kept all initial s

/-- A continuation that is entered has the list that is there, if its stack is watched. -/
def Enters (all : Prop) (initial : List (Value P D)) (s : State P D M) : Prop :=
  ∀ k v stack, s.control = .apply (.cont k) [v] → s.conts[k]? = some stack →
    Watched all stack → s.handlers = pending initial stack

theorem pending_outside (outside : inHandler stack = false) :
    pending initial stack = extents stack ++ initial := by
  induction stack with
  | nil => rfl
  | cons frame rest ih =>
    obtain ⟨here, behind⟩ := (Bool.or_eq_false_iff (x := isHandlerFrame frame)).mp outside
    cases frame with
    | point p => exact ih behind
    | thunk new parent => exact congrArg (new :: ·) (ih behind)
    | raised => cases here
    | continuable handlers => cases here
    | vmExit => cases here

theorem watched_cons (plain : isHandlerFrame frame = false) :
    Watched all (frame :: stack) ↔ Watched all stack := by
  rw [Watched, inHandler, List.any_cons, plain, Bool.false_or]
  rfl

theorem watched_handler (running : isHandlerFrame frame = true)
    (watched : Watched all (frame :: stack)) : Watched all stack := by
  intro _
  apply watched
  rw [inHandler, List.any_cons, running, Bool.true_or]

theorem watched_outside : Watched False stack ↔ inHandler stack = false := by
  rw [Watched, ← Bool.not_eq_true]

theorem Keeps.halt (r : End P D) : Keeps all initial (.halt r : Next (State P D M) (End P D)) := by
  intro s same
  cases same

theorem Keeps.next (kept : Kept all initial s) : Keeps all initial (.next s) := by
  intro s' same
  cases same
  exact kept

theorem Kept.enter {control : Control P D} {handler : Value P D} {rest : List (Value P D)}
    (kept : Kept all initial s) (there : s.handlers = handler :: rest)
    (running : isHandlerFrame frame = true)
    (behind : pending initial (frame :: s.stack) = (pending initial s.stack).tail)
    (restores : Restores all initial (frame :: s.stack)) :
    Kept all initial { s with control := control, stack := frame :: s.stack, handlers := rest } := by
  constructor
  · intro watched
    have same := kept.follows (watched_handler running watched)
    rw [there] at same
    rw [behind, ← same]
    rfl
  · exact restores
  · exact kept.conts

theorem pushExceptionHandler_keeps (kept : Kept all initial s) (msg : D) :
    Keeps all initial (pushExceptionHandler s msg) := by
  unfold pushExceptionHandler
  split
  · exact .halt _
  · rename_i handler rest there
    split
    · apply Keeps.next
      exact kept.enter there rfl rfl kept.stack
    · exact .halt _

theorem withExceptionHandler_keeps (kept : Kept all initial s) (new thunk : Value P D) :
    Kept all initial (withExceptionHandler s new thunk) := by
  constructor
  · intro watched
    have same := kept.follows ((watched_cons rfl).mp watched)
    exact congrArg (new :: ·) same
  · exact ⟨kept.follows, kept.stack⟩
  · exact kept.conts

theorem raise_keeps (kept : Kept all initial s) (x : Value P D) :
    Keeps all initial (raise prog s x) := by
  unfold raise
  split
  · exact pushExceptionHandler_keeps kept _
  · rename_i handler rest there
    apply Keeps.next
    exact kept.enter there rfl rfl kept.stack

theorem raiseContinuable_keeps (kept : Kept all initial s) (x : Value P D) :
    Keeps all initial (raiseContinuable prog s x) := by
  unfold raiseContinuable
  split
  · exact pushExceptionHandler_keeps kept _
  · rename_i handler rest there
    apply Keeps.next
    apply kept.enter there rfl rfl
    constructor
    · intro watched
      rw [← there]
      exact kept.follows watched
    · exact kept.stack

theorem callCc_keeps (kept : Kept all initial s) (f : Value P D) :
    Keeps all initial (callCc prog s f) := by
  unfold callCc
  split
  · apply Keeps.next
    constructor
    · exact kept.follows
    · exact kept.stack
    · intro stack member
      rcases List.mem_append.mp member with older | new
      · exact kept.conts stack older
      · rw [List.mem_singleton.mp new]
        exact kept.stack
  · exact pushExceptionHandler_keeps kept _

theorem callCont_keeps (kept : Kept all initial s) (k : Nat) (v : Value P D)
    (enters : ∀ stack, s.conts[k]? = some stack → Watched all stack →
      s.handlers = pending initial stack) : Keeps all initial (callCont s k v) := by
  unfold callCont
  split
  · rename_i stack known
    apply Keeps.next
    constructor
    · exact enters stack known
    · exact kept.conts stack (List.mem_of_getElem? known)
    · exact kept.conts
  · intro s' same
    cases same

theorem perform_keeps (kept : Kept all initial s) (move : Move P D × M) :
    Keeps all initial (perform s move) := by
  have stored : Kept all initial { s with store := move.2 } :=
    ⟨kept.follows, kept.stack, kept.conts⟩
  unfold perform
  split
  · exact .next ⟨kept.follows, kept.stack, kept.conts⟩
  · apply Keeps.next
    constructor
    · intro watched
      exact kept.follows ((watched_cons rfl).mp watched)
    · exact kept.stack
    · exact kept.conts
  · exact .next ⟨kept.follows, kept.stack, kept.conts⟩
  · exact pushExceptionHandler_keeps stored _
  · exact .halt _

theorem funcCall_keeps (kept : Kept all initial s) (f : Value P D) (args : List (Value P D))
    (here : s.control = .apply f args) (enters : Enters all initial s) :
    Keeps all initial (funcCall prog s f args) := by
  unfold funcCall
  split
  · exact perform_keeps kept _
  · exact .next (withExceptionHandler_keeps kept _ _)
  · exact raise_keeps kept _
  · exact raiseContinuable_keeps kept _
  · exact callCc_keeps kept _
  · rename_i k v
    apply callCont_keeps kept
    intro stack known watched
    exact enters k v stack here known watched
  · exact pushExceptionHandler_keeps kept _

theorem resume_keeps (kept : Kept all initial s) (v : Value P D) :
    Keeps all initial (resume prog s v) := by
  have follows := kept.follows
  have restores := kept.stack
  unfold resume
  split
  · exact .halt _
  · rename_i p rest there
    rw [there] at follows restores
    apply perform_keeps
    constructor
    · intro watched
      exact follows ((watched_cons rfl).mpr watched)
    · exact restores
    · exact kept.conts
  · rename_i new parent rest there
    rw [there] at restores
    exact .next ⟨restores.1, restores.2, kept.conts⟩
  · exact .halt _
  · rename_i handlers rest there
    rw [there] at restores
    exact .next ⟨restores.1, restores.2, kept.conts⟩
  · exact .halt _

theorem step_keeps (s s' : State P D M) (kept : Kept all initial s) (enters : Enters all initial s)
    (one : step prog s = .next s') : Kept all initial s' := by
  unfold step at one
  split at one
  · rename_i f args here
    exact funcCall_keeps kept f args here enters s' one
  · rename_i v here
    exact resume_keeps kept v s' one

theorem start_kept (main : Value P D) (store : M) :
    Kept all initial (start main initial store) := by
  constructor
  · intro _
    rfl
  · trivial
  · intro stack member
    cases member

end invariant

section runs
variable {P D M : Type} {prog : Program P D M} {initial : List (Value P D)} {s : State P D M}

theorem agrees_enters : Agrees initial s ↔ Enters False initial s := by
  constructor
  · intro agrees k v stack here known watched
    have outside := watched_outside.mp watched
    rw [pending_outside outside]
    exact agrees k v stack here known outside
  · intro enters k v stack here known outside
    rw [← pending_outside outside]
    exact enters k v stack here known (watched_outside.mpr outside)

theorem Kept.outside (kept : Kept False initial s) : Follows initial s := by
  intro outside
  rw [← pending_outside outside]
  exact kept.follows (watched_outside.mpr outside)

theorem step_cont {k : Nat} {v : Value P D} {stack : List (Frame P D)}
    (here : s.control = .apply (.cont k) [v]) (known : s.conts[k]? = some stack) :
    step prog s = .next { s with control := .ret v, stack := stack } := by
  rw [step, here]
  show callCont s k v = _
  rw [callCont, known]

theorem follows_iff (prog : Program P D M) (main : Value P D) (initial : List (Value P D))
    (store : M) :
    (∀ s, Reaches (step prog) (start main initial store) s → Follows initial s) ↔
      ∀ s, Reaches (step prog) (start main initial store) s → Agrees initial s := by
  constructor
  · intro follows s run k v stack here known outside
    have jump := run.trans (.one (step_cont here known))
    exact follows _ jump outside
  · intro agrees s run
    have kept : Kept False initial s := by
      apply run.keeps step_keeps _ (start_kept main store)
      intro t there
      exact agrees_enters.mp (agrees t there)
    exact kept.outside

/-- Control goes to a continuation whose with-exception-handler calls are those it is in, without
    the ones that running handlers have taken off. -/
def SameExtent (initial : List (Value P D)) (s : State P D M) : Prop :=
  ∀ k v stack, s.control = .apply (.cont k) [v] → s.conts[k]? = some stack →
    pending initial s.stack = pending initial stack

/- Inside of running handlers too, the list goes with the stack as long as continuations stay
   in their extent. -/
theorem pending_iff (prog : Program P D M) (main : Value P D) (initial : List (Value P D))
    (store : M) :
    (∀ s, Reaches (step prog) (start main initial store) s →
        s.handlers = pending initial s.stack) ↔
      ∀ s, Reaches (step prog) (start main initial store) s → SameExtent initial s := by
  constructor
  · intro follows s run k v stack here known
    have jump := run.trans (.one (step_cont here known))
    rw [← follows s run]
    exact follows _ jump
  · intro same s run
    have kept : Kept True initial s := by
      apply run.keeps _ same (start_kept main store)
      intro t t' kept extent one
      apply step_keeps t t' kept _ one
      intro k v stack here known _
      rw [kept.follows fun _ => trivial]
      exact extent k v stack here known
    exact kept.follows fun _ => trivial

end runs

/- An escape. -/

/-- The points of (call/cc (lambda (k) (with-exception-handler h (lambda () (k v))))). -/
inductive Point where
  | defaultException
  | main
  | receiver
  | handler
  | thunk (k : Nat)
  deriving DecidableEq

def escape : Program Point Unit Unit where
  message _ _ := ()
  run
    | .main, _, store => (.tailCall .callCc [.proc .receiver], store)
    | .receiver, [.cont k], store =>
      (.tailCall .withExceptionHandler [.proc .handler, .proc (.thunk k)], store)
    | .thunk k, [], store => (.tailCall (.cont k) [.data ()], store)
    | _, _, store => (.exit, store)

/- The handler of a call that has been left is still in the list. -/
theorem escape_leaves_handler :
    ¬ ∀ s, Reaches (step escape) (start (.proc .main) [.proc .defaultException] ()) s →
      Follows [.proc .defaultException] s := by
  intro follows
  have run : Reaches (step escape) (start (.proc .main) [.proc .defaultException] ())
      { control := .ret (.data ()), stack := [], conts := [[]], store := ()
        handlers := [.proc .handler, .proc .defaultException] } :=
    .head rfl (.head rfl (.head rfl (.head rfl (.head rfl (.one rfl)))))
  have same := follows _ run rfl
  cases same

end LGears.HandlerExtent
