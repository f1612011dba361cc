import LGears.ModuleFile
import LGears.Library.Machine

/- The constant area of a module as the tokens that stand in it, whatever the memory behind it
   holds, and what the loader does with any area: where the tokens stay inside, it does not
   depend on that memory. -/
namespace LGears.ConstWindow
open Bytes StateExcept Tagged Fasl ModuleFile Machine

/-- What a datum is as the tail of a pair: a list, a pair that is none, or no pair. -/
inductive Tail where
  | list
  | dotted
  | other
  deriving DecidableEq, Repr

/-- What is being read: so many more data, or the elements of a pair, of which the first one read is
    the last tail. -/
inductive Frame where
  | data (n : Nat)
  | elems (tail : Option Tail)
  deriving DecidableEq, Repr

/-- The bytes that are left of the area, and what is being read, innermost first. -/
structure Place where
  bytes : List UInt8
  frames : List Frame
  /-- A pair has been made whose list bit _cons does not set. -/
  unset : Bool
  deriving DecidableEq, Repr

/-- How the tokens end: all of them are there, one is not a constant or is cut off, the text of
    a name runs out of the area, a pair has no elements, or a list bit is what malloc left. -/
inductive Stop where
  | complete
  | refused
  | overrun
  | hollow
  | garbage
  deriving DecidableEq, Repr

/-- What the elements are with one more in front, and whether the list bit of its pair is set by
    nothing. -/
def extend (new : Tail) : Option Tail → Tail × Bool
  | none => (new, false)
  | some .list => (.list, false)
  | some .other => (.dotted, false)
  | some .dotted => (.dotted, true)

/-- A datum has been read. -/
def deliver (kind : Tail) (bs : List UInt8) (unset : Bool) : List Frame → Place
  | .elems tail :: fs =>
    ⟨bs, .elems (some (extend kind tail).1) :: fs, unset || (extend kind tail).2⟩
  | fs => ⟨bs, fs, unset⟩

def skip (n : Nat) (bs : List UInt8) (unset : Bool) (fs : List Frame) : Next Place Stop :=
  if n ≤ bs.length then .next (deliver .other (bs.drop n) unset fs) else .halt .refused

/-- A text of the length that stands before it, which ends at the first zero after that. -/
def text (bs : List UInt8) (next : CString → List UInt8 → Next Place Stop) : Next Place Stop :=
  match bs with
  | [] => .halt .refused
  | len :: bs =>
    if len.toNat ≤ bs.length then
      match CString.at bs with
      | some str => next str (bs.drop len.toNat)
      | none => .halt .overrun
    else .halt .refused

/-- The frame of a structure, whose size is the next byte. -/
def fields (bs : List UInt8) (unset : Bool) (fs : List Frame) : Next Place Stop :=
  match bs with
  | [] => .halt .refused
  | size :: bs => .next ⟨bs, .data size.toNat :: fs, unset⟩

/-- A datum of the given type, after which fs is being read. -/
def token (globals : Globals) (type : Nat) (bs : List UInt8) (unset : Bool) (fs : List Frame) :
    Next Place Stop :=
  match type with
  | 0x0 => skip 8 bs unset fs
  | 0x1 => skip 2 bs unset fs
  | 0x2 | 0x3 => text bs fun _ rest => .next (deliver .other rest unset fs)
  | 0x4 => text bs fun name rest =>
    if (globals name).isSome then .next (deliver .other rest unset fs) else .halt .refused
  | 0x5 => .next ⟨bs, .elems none :: fs, unset⟩
  | 0x7 => text bs fun _ rest => fields rest unset fs
  | 0x8 => skip 1 bs unset fs
  | 0x9 => .next (deliver .list bs unset fs)
  | _ => .halt .refused

def step (globals : Globals) : Place → Next Place Stop
  | ⟨_, [], unset⟩ => .halt (if unset then .garbage else .complete)
  | ⟨bs, .data 0 :: fs, unset⟩ => .next (deliver .other bs unset fs)
  | ⟨[], _, _⟩ => .halt .refused
  | ⟨type :: bs, .data (n + 1) :: fs, unset⟩ => token globals type.toNat bs unset (.data n :: fs)
  | ⟨type :: bs, .elems tail :: fs, unset⟩ =>
    if type.toNat = 0x6 then
      match tail with
      | none => .halt .hollow
      | some kind => .next (deliver kind bs unset fs)
    else token globals type.toNat bs unset (.elems tail :: fs)

/-- The first byte counts the constants. -/
def start : List UInt8 → Place
  | [] => ⟨[], [.data 1], false⟩
  | ccount :: bs => ⟨bs, [.data ccount.toNat], false⟩

/-- Every text ends inside the area and no pair is empty, as far as the tokens can be read, and when
    all can be read none of the pairs has its list bit unset. -/
def Contained (globals : Globals) (bs : List UInt8) : Prop :=
  ¬ Halts (step globals) (start bs) .overrun ∧ ¬ Halts (step globals) (start bs) .hollow ∧
    ¬ Halts (step globals) (start bs) .garbage

/-- The area at a pointer, and the memory behind it. -/
def area (bs beyond : List UInt8) : Window := ⟨bs ++ beyond, bs.length, by simp⟩

/-- The errors of CODE_ASSERT and FATAL. -/
def Aborts : LoadError → Prop
  | .assertion | .invalidStatic _ | .unhandledType _ => True
  | .unterminated | .uninitialised | .fuel => False

instance : DecidablePred Aborts := fun e => by cases e <;> unfold Aborts <;> infer_instance

/- Whether a list bit inside the object is what malloc left there. -/
mutual
def hasUnset : Obj → Bool
  | .pair car cdr mark => decide (mark = .unset) || hasUnset car || hasUnset cdr
  | .struct typeName fields => hasUnset typeName || hasUnsetAny fields
  | _ => false
def hasUnsetAny : List Obj → Bool
  | [] => false
  | o :: os => hasUnset o || hasUnsetAny os
end

/-- The loader ends: it aborts, or it returns objects all parts of which have been set, in the same
    way whatever stands behind the area. -/
def InsideOnly (globals : Globals) (bs : List UInt8) : Prop :=
  ∀ fuel, 2 * bs.length + 2 ≤ fuel → ∃ r : Except LoadError (List Obj),
    (∀ e, r = .error e → Aborts e) ∧ (∀ objs, r = .ok objs → hasUnsetAny objs = false) ∧
    ∀ beyond, (loadConsts globals fuel (area bs beyond)).map Prod.fst = r

/- Objects as tails. -/

def tailOf : Obj → Tail
  | .imm word => if word = cnull then .list else .other
  | .pair _ _ (.list _) => .list
  | .pair .. => .dotted
  | _ => .other

theorem tailOf_imm {word : Word} (tag : getTag word ≠ tagConst) : tailOf (.imm word) = .other := by
  have notNull : word ≠ cnull := fun null => tag (by rw [null]; decide)
  simp [tailOf, notNull]

theorem tailOf_cif (b : Bool) : tailOf (.imm (cif b)) = .other := by
  cases b <;> decide

theorem tailOf_cons (new res : Obj) :
    tailOf (.cons new res) = (extend (tailOf new) (some (tailOf res))).1 := by
  cases res with
  | imm word => by_cases null : word = cnull <;> simp [Obj.cons, tailOf, null, extend]
  | pair _ _ mark => cases mark <;> rfl
  | _ => rfl

theorem hasUnset_cons (new res : Obj) : hasUnset (.cons new res) =
    (hasUnset new || hasUnset res || (extend (tailOf new) (some (tailOf res))).2) := by
  cases res with
  | imm word =>
    by_cases null : word = cnull <;> simp [Obj.cons, tailOf, null, extend, hasUnset]
  | pair _ _ mark => cases mark <;> simp [Obj.cons, tailOf, extend, hasUnset, Bool.or_comm]
  | _ => simp [Obj.cons, tailOf, extend, hasUnset]

section reading
variable {α β : Type} {globals : Globals} {place mid : Place} {bs rest beyond : List UInt8}
  {fs : List Frame} {unset : Bool}

theorem take_area {n : Nat} (inside : n ≤ bs.length) :
    take LoadError.assertion n (area bs beyond) = .ok (bs.take n, area (bs.drop n) beyond) := by
  simp [take, area, inside, List.take_append_of_le_length inside,
    List.drop_append_of_le_length inside]

theorem take_outside {n : Nat} (outside : ¬ n ≤ bs.length) :
    take LoadError.assertion n (area bs beyond) = .error .assertion := by
  simp [take, area, outside]

theorem codeRead8_area {b : UInt8} :
    codeRead8 (area (b :: bs) beyond) = .ok (b.toNat, area bs beyond) := by
  simp [codeRead8, take, area, Functor.map, StateT.map, bind, Except.bind, pure, Except.pure, ofLE]

theorem codeRead8_end : codeRead8 (area [] beyond) = .error .assertion := by
  simp [codeRead8, take, area, Functor.map, StateT.map, bind, Except.bind]

theorem codePeek8_area {b : UInt8} :
    codePeek8 (area (b :: bs) beyond) = .ok (b.toNat, area (b :: bs) beyond) := by
  simp [codePeek8, peek, area, Functor.map, StateT.map, bind, Except.bind, pure, Except.pure, ofLE]

theorem codePeek8_end : codePeek8 (area [] beyond) = .error .assertion := by
  simp [codePeek8, peek, area, Functor.map, StateT.map, bind, Except.bind]

theorem at_area {str : CString} (inside : CString.at bs = some str) :
    CString.at (bs ++ beyond) = some str := by
  by_cases terminated : 0 ∈ bs
  · obtain ⟨before, after, rfl⟩ := List.append_of_mem terminated
    rw [CString.at_terminated] at inside
    rw [List.append_assoc, List.cons_append, CString.at_terminated]
    exact inside
  · simp [CString.at, terminated] at inside

/- Agreement of the loader with the tokens. -/

/-- From the area bs the loader returns with Q, or it aborts where the tokens are refused, or
    the tokens leave the area or come to an empty pair and it goes wrong where nothing stands
    behind the area. -/
inductive Agrees (globals : Globals) (place : Place) (p : Load α) (bs : List UInt8)
    (Q : α → List UInt8 → Prop) : Prop
  | returns (a : α) (rest : List UInt8)
      (same : ∀ beyond, p (area bs beyond) = .ok (a, area rest beyond)) (post : Q a rest)
  | aborts (e : LoadError) (proper : Aborts e) (same : ∀ beyond, p (area bs beyond) = .error e)
      (halts : Halts (step globals) place .refused)
  | overrun (alone : p (area bs []) = .error .unterminated)
      (halts : Halts (step globals) place .overrun)
  | hollow (alone : p (area bs []) = .error .uninitialised)
      (halts : Halts (step globals) place .hollow)

variable {p : Load α} {f : α → Load β} {Q : α → List UInt8 → Prop} {R : β → List UInt8 → Prop}

theorem error_bind {w : Window} {e : LoadError} (failed : p w = .error e) :
    (p >>= f) w = .error e := by
  show (p w).bind _ = _
  rw [failed]
  rfl

theorem ok_bind {w v : Window} {a : α} (ok : p w = .ok (a, v)) : (p >>= f) w = f a v := by
  show (p w).bind _ = _
  rw [ok]
  rfl

theorem Agrees.bind (first : Agrees globals place p bs Q)
    (next : ∀ a rest, Q a rest → Agrees globals place (f a) rest R) :
    Agrees globals place (p >>= f) bs R := by
  cases first with
  | returns a rest same post =>
    cases next a rest post with
    | returns b last same' post' =>
      exact .returns b last (fun beyond => by rw [ok_bind (same beyond), same']) post'
    | aborts e proper same' halts =>
      exact .aborts e proper (fun beyond => by rw [ok_bind (same beyond), same']) halts
    | overrun alone halts => exact .overrun (by rw [ok_bind (same []), alone]) halts
    | hollow alone halts => exact .hollow (by rw [ok_bind (same []), alone]) halts
  | aborts e proper same halts =>
    exact .aborts e proper (fun beyond => error_bind (same beyond)) halts
  | overrun alone halts => exact .overrun (error_bind alone) halts
  | hollow alone halts => exact .hollow (error_bind alone) halts

theorem Agrees.after (reach : Reaches (step globals) place mid)
    (agrees : Agrees globals mid p bs Q) : Agrees globals place p bs Q := by
  cases agrees with
  | returns a rest same post => exact .returns a rest same post
  | aborts e proper same halts => exact .aborts e proper same (halts.after reach)
  | overrun alone halts => exact .overrun alone (halts.after reach)
  | hollow alone halts => exact .hollow alone (halts.after reach)

theorem Agrees.read {a : α} (same : ∀ beyond, p (area bs beyond) = .ok (a, area rest beyond))
    (next : Agrees globals place (f a) rest R) : Agrees globals place (p >>= f) bs R := by
  apply Agrees.bind (Q := fun b left => b = a ∧ left = rest) (.returns a rest same ⟨rfl, rfl⟩)
  rintro _ _ ⟨rfl, rfl⟩
  exact next

theorem agrees_pure {a : α} (post : Q a bs) : Agrees globals place (pure a) bs Q :=
  .returns a bs (fun _ => rfl) post

/-- The tokens are read up to another place, with no more bytes than bs. -/
def Left (globals : Globals) (place : Place) (bs : List UInt8) (other : Place) : Prop :=
  other.bytes.length ≤ bs.length ∧ Reaches (step globals) place other

theorem bytes_deliver (kind : Tail) (bs : List UInt8) (unset : Bool) (fs : List Frame) :
    (deliver kind bs unset fs).bytes = bs := by
  unfold deliver
  split <;> rfl

theorem left_deliver {kind : Tail} (short : rest.length ≤ bs.length)
    (reach : Reaches (step globals) place (deliver kind rest unset fs)) :
    Left globals place bs (deliver kind rest unset fs) := by
  refine ⟨?_, reach⟩
  rw [bytes_deliver]
  exact short

/-- The place behind the object. -/
def behind (o : Obj) (rest : List UInt8) (unset : Bool) (fs : List Frame) : Place :=
  deliver (tailOf o) rest (unset || hasUnset o) fs

theorem behind_plain {o : Obj} (kind : tailOf o = .other) (set : hasUnset o = false) :
    behind o rest unset fs = deliver .other rest unset fs := by
  rw [behind, kind, set, Bool.or_false]

theorem agrees_skip {n : Nat} {g : List UInt8 → α}
    (skips : step globals place = skip n bs unset fs) :
    Agrees globals place (g <$> take .assertion n) bs
      fun _ rest => Left globals place bs (deliver .other rest unset fs) := by
  rw [skip] at skips
  split at skips
  case isTrue inside =>
    apply Agrees.returns (g (bs.take n)) (bs.drop n)
    · intro beyond
      rw [← bind_pure_comp, ok_bind (take_area inside)]
      rfl
    · exact left_deliver (by simp) (.one skips)
  case isFalse outside =>
    apply Agrees.aborts .assertion trivial _ (.here skips)
    intro beyond
    rw [← bind_pure_comp, error_bind (take_outside outside)]

theorem codeReadCString_end : codeReadCString (area [] beyond) = .error .assertion := by
  rw [codeReadCString, codeReadString]
  apply error_bind
  exact error_bind codeRead8_end

theorem codeReadCString_cut {len : UInt8} (outside : ¬ len.toNat ≤ bs.length) :
    codeReadCString (area (len :: bs) beyond) = .error .assertion := by
  rw [codeReadCString, codeReadString]
  apply error_bind
  rw [ok_bind codeRead8_area]
  exact error_bind (f := fun _ => pure (bs ++ beyond)) (take_outside outside)

theorem codeReadCString_area {len : UInt8} (inside : len.toNat ≤ bs.length) :
    codeReadCString (area (len :: bs) beyond) =
      cstringAt (bs ++ beyond) (area (bs.drop len.toNat) beyond) := by
  have address : codeReadString (area (len :: bs) beyond) =
      .ok (bs ++ beyond, area (bs.drop len.toNat) beyond) := by
    rw [codeReadString, ok_bind codeRead8_area]
    show (take LoadError.assertion len.toNat >>= fun _ => pure (bs ++ beyond)) _ = _
    rw [ok_bind (take_area inside)]
    rfl
  rw [codeReadCString, ok_bind address]

theorem agrees_text {next : CString → List UInt8 → Next Place Stop} {f : CString → Load β}
    (reads : step globals place = text bs next)
    (more : ∀ str rest, rest.length < bs.length → step globals place = next str rest →
      Agrees globals place (f str) rest R) :
    Agrees globals place (codeReadCString >>= f) bs R := by
  rcases bs with _ | ⟨len, bs⟩
  · apply Agrees.aborts .assertion trivial _ (.here reads)
    exact fun _ => error_bind codeReadCString_end
  rw [text] at reads
  by_cases inside : len.toNat ≤ bs.length
  · rw [if_pos inside] at reads
    cases found : CString.at bs with
    | none =>
      rw [found] at reads
      apply Agrees.overrun _ (.here reads)
      apply error_bind
      rw [codeReadCString_area inside, List.append_nil, cstringAt, found]
      rfl
    | some str =>
      rw [found] at reads
      have same (beyond : List UInt8) : codeReadCString (area (len :: bs) beyond) =
          .ok (str, area (bs.drop len.toNat) beyond) := by
        rw [codeReadCString_area inside, cstringAt, at_area found]
        rfl
      apply Agrees.read same
      apply more str _ _ reads
      simp only [List.length_drop, List.length_cons]
      omega
  · rw [if_neg inside] at reads
    apply Agrees.aborts .assertion trivial _ (.here reads)
    exact fun _ => error_bind (codeReadCString_cut inside)

/- The data of the area. -/

/-- A datum comes next, after which fs is being read. -/
def Due (globals : Globals) (place : Place) (bs : List UInt8) (unset : Bool) (fs : List Frame) :
    Prop :=
  step globals place = match bs with
    | [] => .halt .refused
    | type :: rest => token globals type.toNat rest unset fs

theorem due_data (bs : List UInt8) (n : Nat) (unset : Bool) (fs : List Frame) :
    Due globals ⟨bs, .data (n + 1) :: fs, unset⟩ bs unset (.data n :: fs) := by
  cases bs <;> rfl

/-- The place with the elements that have been read. -/
def among (res : Option Obj) (bs : List UInt8) (unset : Bool) (fs : List Frame) : Place :=
  ⟨bs, .elems (res.map tailOf) :: fs, unset || res.any hasUnset⟩

theorem behind_among (new : Obj) (res : Option Obj) :
    behind new rest (unset || res.any hasUnset) (.elems (res.map tailOf) :: fs) =
      among (some (pairExtend new res)) rest unset fs := by
  cases res with
  | none => simp [behind, among, deliver, extend, pairExtend]
  | some res =>
    simp only [behind, among, deliver, pairExtend, Option.map_some, Option.any_some, tailOf_cons,
      hasUnset_cons, Bool.or_assoc, Bool.or_left_comm]

/-- What the procedures do on the areas of at most n bytes, with fuel for them. -/
structure AgreesUpTo (globals : Globals) (n : Nat) : Prop where
  datum : ∀ {fuel place bs unset fs}, bs.length ≤ n → 2 * bs.length + 1 ≤ fuel →
    Due globals place bs unset fs →
    Agrees globals place (faslReadDatum globals fuel) bs fun o rest =>
      rest.length < bs.length ∧ Reaches (step globals) place (behind o rest unset fs)
  pair : ∀ {fuel bs unset fs} res, bs.length ≤ n → 2 * bs.length + 2 ≤ fuel →
    Agrees globals (among res bs unset fs) (readPair globals fuel res) bs
      fun o rest => Left globals (among res bs unset fs) bs (behind o rest unset fs)
  fields : ∀ {fuel bs unset fs} size, bs.length ≤ n → 2 * bs.length + 2 ≤ fuel →
    Agrees globals ⟨bs, .data size :: fs, unset⟩ (readFields globals fuel size) bs
      fun os rest => Left globals ⟨bs, .data size :: fs, unset⟩ bs
        (deliver .other rest (unset || hasUnsetAny os) fs)

theorem agrees_lookup {name : CString} (found : step globals place =
      if (globals name).isSome then .next (deliver .other bs unset fs) else .halt .refused) :
    Agrees globals place (lookupGlobal globals name) bs
      fun o rest => Left globals place bs (behind o rest unset fs) := by
  rw [lookupGlobal]
  cases known : globals name with
  | none =>
    rw [known] at found
    exact .aborts (.invalidStatic name) trivial (fun _ => rfl) (.here found)
  | some native =>
    rw [known] at found
    apply agrees_pure
    rw [behind_plain rfl rfl]
    exact left_deliver le_rfl (.one found)

theorem Agrees.map {g : α → β} (agrees : Agrees globals place p bs Q)
    (post : ∀ a rest, Q a rest → R (g a) rest) :
    Agrees globals place (p >>= fun a => pure (g a)) bs R :=
  agrees.bind fun a rest h => agrees_pure (post a rest h)

theorem Agrees.mono {Q' : α → List UInt8 → Prop} (agrees : Agrees globals place p bs Q)
    (post : ∀ a rest, Q a rest → Q' a rest) : Agrees globals place p bs Q' := by
  cases agrees with
  | returns a rest same here => exact .returns a rest same (post a rest here)
  | aborts e proper same halts => exact .aborts e proper same halts
  | overrun alone halts => exact .overrun alone halts
  | hollow alone halts => exact .hollow alone halts

theorem agrees_type {n fuel : Nat} (below : ∀ m < n, AgreesUpTo globals m) {type : UInt8}
    (short : (type :: rest).length ≤ n) (enough : 2 * rest.length + 2 ≤ fuel)
    (due : step globals place = token globals type.toNat rest unset fs) :
    Agrees globals place (faslReadDatum globals (fuel + 1)) (type :: rest) fun o last =>
      Left globals place rest (behind o last unset fs) := by
  have inner := below rest.length short
  rw [faslReadDatum]
  apply Agrees.read fun _ => codeRead8_area
  split
  case _ is =>
    rw [is, token] at due
    rw [codeRead64, Functor.map_map]
    apply (agrees_skip due).map
    intro bytes last left
    rwa [behind_plain (tailOf_imm (by rw [getTag_makeFixnum]; decide)) rfl]
  case _ is =>
    rw [is, token] at due
    apply (agrees_skip due).map
    intro bytes last left
    rwa [behind_plain (tailOf_imm (by rw [getTag_makeChar]; decide)) rfl]
  case _ is =>
    rw [is, token] at due
    apply agrees_text due
    intro str last less reach
    apply agrees_pure
    rw [behind_plain rfl rfl]
    exact left_deliver less.le (.one reach)
  case _ is =>
    rw [is, token] at due
    apply agrees_text due
    intro str last less reach
    apply agrees_pure
    rw [behind_plain rfl rfl]
    exact left_deliver less.le (.one reach)
  case _ is =>
    rw [is, token] at due
    apply agrees_text due
    intro str last less found
    apply (agrees_lookup found).mono
    exact fun _ _ left => ⟨left.1.trans less.le, left.2⟩
  case _ is =>
    rw [is, token] at due
    apply agrees_pure
    have place : behind (.imm cnull) rest unset fs = deliver .list rest unset fs := by
      simp [behind, tailOf, hasUnset]
    rw [place]
    exact left_deliver le_rfl (.one due)
  case _ is =>
    rw [is, token] at due
    apply (agrees_skip due).map
    intro bytes last left
    rwa [behind_plain (tailOf_cif _) rfl]
  case _ is =>
    rw [is, token] at due
    have start : step globals place = .next (among none rest unset fs) := by
      rw [due, among, Option.any_none, Bool.or_false]
      rfl
    apply Agrees.after (.one start)
    apply (inner.pair none le_rfl enough).mono
    intro _ last left
    exact ⟨left.1, .trans (.one start) left.2⟩
  case _ is =>
    rw [is, token] at due
    apply agrees_text due
    intro str last less reads
    rcases last with _ | ⟨size, last⟩
    · exact .aborts .assertion trivial (fun _ => error_bind codeRead8_end) (.here reads)
    have sized : step globals place = .next ⟨last, .data size.toNat :: fs, unset⟩ := reads
    rw [List.length_cons] at less
    apply Agrees.read fun _ => codeRead8_area
    apply Agrees.after (.one sized)
    apply (inner.fields size.toNat (by omega) (by omega)).map
    intro os left after
    obtain ⟨still, reach⟩ := after
    rw [bytes_deliver] at still
    have stays : behind (.struct (.symbol str) os) left unset fs =
        deliver .other left (unset || hasUnsetAny os) fs := by
      simp [behind, tailOf, hasUnset]
    rw [stays]
    exact left_deliver (by omega) (.trans (.one sized) reach)
  case _ =>
    rw [token] at due
    · exact .aborts (.unhandledType type.toNat) trivial (fun _ => rfl) (.here due)
    all_goals assumption

theorem agrees_datum {n : Nat} (below : ∀ m < n, AgreesUpTo globals m) {fuel : Nat}
    (short : bs.length ≤ n) (enough : 2 * bs.length + 1 ≤ fuel)
    (due : Due globals place bs unset fs) :
    Agrees globals place (faslReadDatum globals fuel) bs fun o rest =>
      rest.length < bs.length ∧ Reaches (step globals) place (behind o rest unset fs) := by
  obtain ⟨fuel, rfl⟩ : ∃ k, fuel = k + 1 := ⟨fuel - 1, by omega⟩
  rcases bs with _ | ⟨type, rest⟩
  · rw [faslReadDatum]
    exact .aborts .assertion trivial (fun _ => error_bind codeRead8_end) (.here due)
  rw [List.length_cons] at enough
  apply (agrees_type below short (by omega) due).mono
  intro _ last left
  obtain ⟨still, reach⟩ := left
  rw [behind, bytes_deliver] at still
  exact ⟨Nat.lt_succ_of_le still, reach⟩

theorem agrees_pair {n : Nat} (below : ∀ m < n, AgreesUpTo globals m) {fuel : Nat}
    (res : Option Obj) (short : bs.length ≤ n) (enough : 2 * bs.length + 2 ≤ fuel) :
    Agrees globals (among res bs unset fs) (readPair globals fuel res) bs
      fun o rest => Left globals (among res bs unset fs) bs (behind o rest unset fs) := by
  obtain ⟨fuel, rfl⟩ : ∃ k, fuel = k + 1 := ⟨fuel - 1, by omega⟩
  rcases bs with _ | ⟨type, rest⟩
  · rw [readPair]
    exact .aborts .assertion trivial (fun _ => error_bind codePeek8_end) (.here rfl)
  rw [readPair]
  apply Agrees.read fun _ => codePeek8_area
  by_cases isEnd : type.toNat = 0x6
  · rw [if_pos isEnd]
    apply Agrees.read fun _ => codeRead8_area
    cases res with
    | none =>
      have empty : step globals (among none (type :: rest) unset fs) = .halt .hollow := if_pos isEnd
      exact .hollow rfl (.here empty)
    | some res =>
      have closed : step globals (among (some res) (type :: rest) unset fs) =
          .next (behind res rest unset fs) := if_pos isEnd
      exact agrees_pure (left_deliver (by simp) (.one closed))
  · rw [if_neg isEnd]
    have due : Due globals (among res (type :: rest) unset fs) (type :: rest)
        (unset || res.any hasUnset) (.elems (res.map tailOf) :: fs) := if_neg isEnd
    apply (agrees_datum below short (by omega) due).bind
    intro new last ran
    obtain ⟨less, reach⟩ := ran
    rw [behind_among] at reach
    apply Agrees.after reach
    apply ((below last.length (by omega)).pair (some (pairExtend new res)) le_rfl (by omega)).mono
    intro o left after
    obtain ⟨still, more⟩ := after
    exact ⟨by omega, reach.trans more⟩

theorem agrees_fields {n : Nat} (below : ∀ m < n, AgreesUpTo globals m) {fuel : Nat} (size : Nat)
    (short : bs.length ≤ n) (enough : 2 * bs.length + 2 ≤ fuel) :
    Agrees globals ⟨bs, .data size :: fs, unset⟩ (readFields globals fuel size) bs
      fun os rest => Left globals ⟨bs, .data size :: fs, unset⟩ bs
        (deliver .other rest (unset || hasUnsetAny os) fs) := by
  obtain ⟨fuel, rfl⟩ : ∃ k, fuel = k + 1 := ⟨fuel - 1, by omega⟩
  cases size with
  | zero =>
    rw [readFields]
    apply agrees_pure
    rw [hasUnsetAny, Bool.or_false]
    exact left_deliver le_rfl (.one (by cases bs <;> rfl))
  | succ size =>
    rw [readFields]
    apply (agrees_datum below short (by omega) (due_data bs size unset fs)).bind
    intro field last ran
    obtain ⟨less, reach⟩ := ran
    apply Agrees.after reach
    apply ((below last.length (by omega)).fields size le_rfl (by omega)).map
    intro os left after
    obtain ⟨still, more⟩ := after
    rw [bytes_deliver] at still
    rw [hasUnsetAny, ← Bool.or_assoc]
    exact left_deliver (by omega) (reach.trans more)

theorem agrees_upTo (n : Nat) : AgreesUpTo globals n := by
  induction n using Nat.strongRecOn with
  | ind n below =>
    constructor
    · exact agrees_datum below
    · exact agrees_pair below
    · exact agrees_fields below

/- The constants. -/

theorem agrees_each {fuel : Nat} (enough : 2 * bs.length + 1 ≤ fuel) (n : Nat) :
    Agrees globals ⟨bs, [.data n], unset⟩ (loadEach globals fuel n) bs
      fun os rest => Left globals ⟨bs, [.data n], unset⟩ bs ⟨rest, [], unset || hasUnsetAny os⟩ := by
  induction n generalizing bs unset with
  | zero =>
    apply agrees_pure
    rw [hasUnsetAny, Bool.or_false]
    exact ⟨le_rfl, .one (by cases bs <;> rfl)⟩
  | succ n ih =>
    rw [loadEach]
    apply ((agrees_upTo bs.length).datum le_rfl enough (due_data bs n unset [])).bind
    intro first last ran
    obtain ⟨less, reach⟩ := ran
    apply Agrees.after reach
    apply (ih (by omega)).map
    intro os left after
    obtain ⟨still, more⟩ := after
    rw [hasUnsetAny, ← Bool.or_assoc]
    exact ⟨Nat.le_trans still less.le, reach.trans more⟩

theorem agrees_consts {fuel : Nat} (enough : 2 * bs.length + 1 ≤ fuel) :
    Agrees globals (start bs) (loadConsts globals fuel) bs fun os _ =>
      Halts (step globals) (start bs) (if hasUnsetAny os then .garbage else .complete) := by
  rcases bs with _ | ⟨ccount, bs⟩
  · exact .aborts .assertion trivial (fun _ => error_bind codeRead8_end) (.here rfl)
  rw [List.length_cons] at enough
  rw [loadConsts]
  apply Agrees.read fun _ => codeRead8_area
  apply (agrees_each (by omega) ccount.toNat).mono
  intro os last left
  exact ⟨_, left.2, by rw [step, Bool.false_or]⟩

theorem insideOnly_of_error {e : LoadError} {fuel : Nat} (bad : ¬ Aborts e)
    (enough : 2 * bs.length + 2 ≤ fuel) (alone : loadConsts globals fuel (area bs []) = .error e) :
    ¬ InsideOnly globals bs := by
  intro inside
  obtain ⟨r, proper, _, same⟩ := inside fuel enough
  apply bad
  apply proper
  rw [← same [], alone]
  rfl

theorem insideOnly_of_unset {objs : List Obj} {w : Window} {fuel : Nat}
    (unset : hasUnsetAny objs = true) (enough : 2 * bs.length + 2 ≤ fuel)
    (alone : loadConsts globals fuel (area bs []) = .ok (objs, w)) : ¬ InsideOnly globals bs := by
  intro inside
  obtain ⟨r, _, set, same⟩ := inside fuel enough
  have none := set objs (by rw [← same [], alone]; rfl)
  rw [none] at unset
  cases unset

end reading

/- The loader depends on its window only, exactly when the tokens end inside it and set all of the
   objects. -/
theorem insideOnly_iff (globals : Globals) (bs : List UInt8) :
    InsideOnly globals bs ↔ Contained globals bs := by
  constructor
  · intro inside
    have agrees : Agrees globals (start bs) (loadConsts globals (2 * bs.length + 2)) bs _ :=
      agrees_consts (by omega)
    have other : ∀ {stop : Stop}, Halts (step globals) (start bs) stop →
        stop = .complete ∨ stop = .refused → Contained globals bs := by
      intro stop halts fine
      refine ⟨?_, ?_, ?_⟩ <;>
      · intro bad
        have same := halts.unique bad
        rcases fine with rfl | rfl <;> cases same
    cases agrees with
    | returns objs rest same halts =>
      cases unset : hasUnsetAny objs with
      | false =>
        rw [unset] at halts
        exact other halts (.inl rfl)
      | true => exact absurd inside (insideOnly_of_unset unset le_rfl (same []))
    | aborts e proper same halts => exact other halts (.inr rfl)
    | overrun alone halts =>
      exact absurd inside (insideOnly_of_error (by decide) le_rfl alone)
    | hollow alone halts =>
      exact absurd inside (insideOnly_of_error (by decide) le_rfl alone)
  · intro contained fuel enough
    obtain ⟨noOverrun, noHollow, noGarbage⟩ := contained
    have agrees : Agrees globals (start bs) (loadConsts globals fuel) bs _ :=
      agrees_consts (by omega)
    cases agrees with
    | returns objs rest same halts =>
      refine ⟨.ok objs, by simp, ?_, fun beyond => by rw [same]; rfl⟩
      intro objs' equal
      cases equal
      cases unset : hasUnsetAny objs with
      | false => rfl
      | true =>
        rw [unset] at halts
        exact absurd halts noGarbage
    | aborts e proper same halts =>
      refine ⟨.error e, ?_, by simp, fun beyond => by rw [same]; rfl⟩
      rintro _ ⟨⟩
      exact proper
    | overrun alone halts => exact absurd halts noOverrun
    | hollow alone halts => exact absurd halts noHollow

/-- The constant (1 2 . 3). -/
def dottedArea : List UInt8 :=
  [1, 5, 0, 3, 0, 0, 0, 0, 0, 0, 0, 0, 2, 0, 0, 0, 0, 0, 0, 0, 0, 1, 0, 0, 0, 0, 0, 0, 0, 6]

/- One constant, a pair that ends where it begins; one, a string whose only byte is not its end; and
   an improper list whose first pair has a list bit that nothing sets. -/
theorem insideOnly_fails :
    ¬ InsideOnly (fun _ => none) [1, 5, 6] ∧ ¬ InsideOnly (fun _ => none) [1, 2, 1, 97] ∧
      ¬ InsideOnly (fun _ => none) dottedArea := by
  refine ⟨?_, ?_, ?_⟩
  · exact insideOnly_of_error (by decide) (by decide : _ ≤ 8) rfl
  · exact insideOnly_of_error (by decide) (by decide : _ ≤ 10) rfl
  · obtain ⟨objs, w, loads, unset⟩ : ∃ objs w, loadConsts (fun _ => none) 62 (area dottedArea []) =
        .ok (objs, w) ∧ hasUnsetAny objs = true := ⟨_, _, rfl, rfl⟩
    exact insideOnly_of_unset unset (by decide) loads

end LGears.ConstWindow
