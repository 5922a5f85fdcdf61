import LdbToolchain.Lib.Rmw
import Mathlib.Data.BitVec

/-!
# Atomic words

The operations of `atomic.h` on an `int`. x86-64 has a locked instruction for most of them and falls
back on a loop around `a_cas` for the rest; aarch64 builds all of them on `a_ll` and `a_sc`. Both are
the same atomic word to the threads that share it.

Memory accesses are interleaved one by one; the orders a weaker memory would allow are left out, and
so the barriers do nothing here.
-/

namespace LdbToolchain.Atomic

open Linearizable Rmw

/-- `int`. -/
abbrev Word := BitVec 32

/-- The calls on a word. -/
inductive Op where
  | cas (t s : Word)
  | swap (v : Word)
  | fetchAdd (v : Word)
  | fetchAnd (v : Word)
  | fetchOr (v : Word)
  | and (v : Word)
  | or (v : Word)
  | inc
  | dec
  | store (v : Word)

/-- What each operation is for: the new word, and the old one where it is returned. -/
def word : Obj Word Op (Option Word)
  | .cas t s, a => (if a = t then s else a, some a)
  | .swap v, a => (v, some a)
  | .fetchAdd v, a => (a + v, some a)
  | .fetchAnd v, a => (a &&& v, some a)
  | .fetchOr v, a => (a ||| v, some a)
  | .and v, a => (a &&& v, none)
  | .or v, a => (a ||| v, none)
  | .inc, a => (a + 1, none)
  | .dec, a => (a - 1, none)
  | .store v, _ => (v, none)

/-- A `void` function that calls another for its effect. -/
def discard {α : Type} (m : Method α) : Method α := { m with returns := false }

/-! ## x86-64 -/

namespace X86

/-- `lock cmpxchg`. -/
def aCas (t s : Word) : Method Word := ⟨.locked fun a => if a = t then s else a, true⟩

/-- `xchg`. -/
def aSwap (v : Word) : Method Word := ⟨.locked fun _ => v, true⟩

/-- `lock xadd`. -/
def aFetchAdd (v : Word) : Method Word := ⟨.locked fun a => a + v, true⟩

/-- From `atomic.h`: x86-64 has no instruction for it. -/
def aFetchAnd (v : Word) : Method Word := ⟨.casLoop fun old => old &&& v, true⟩

def aFetchOr (v : Word) : Method Word := ⟨.casLoop fun old => old ||| v, true⟩

/-- `lock and`. -/
def aAnd (v : Word) : Method Word := ⟨.locked fun a => a &&& v, false⟩

/-- `lock or`. -/
def aOr (v : Word) : Method Word := ⟨.locked fun a => a ||| v, false⟩

/-- `lock incl`. -/
def aInc : Method Word := ⟨.locked fun a => a + 1, false⟩

/-- `lock decl`. -/
def aDec : Method Word := ⟨.locked fun a => a - 1, false⟩

/-- `mov`; the locked `orl` after it is the barrier. -/
def aStore (x : Word) : Method Word := ⟨.store x, false⟩

def code : Op → Method Word
  | .cas t s => aCas t s
  | .swap v => aSwap v
  | .fetchAdd v => aFetchAdd v
  | .fetchAnd v => aFetchAnd v
  | .fetchOr v => aFetchOr v
  | .and v => aAnd v
  | .or v => aOr v
  | .inc => aInc
  | .dec => aDec
  | .store v => aStore v

theorem code_obj (op : Op) : (code op).obj = word op := by cases op <;> rfl

end X86

/-! ## aarch64 -/

namespace Aarch64

/-- Left at once when the word is not the expected one. -/
def aCas (t s : Word) : Method Word := ⟨.llsc fun old => if old ≠ t then none else some s, true⟩

def aSwap (v : Word) : Method Word := ⟨.llsc fun _ => some v, true⟩

def aFetchAdd (v : Word) : Method Word := ⟨.llsc fun old => some (old + v), true⟩

def aFetchAnd (v : Word) : Method Word := ⟨.llsc fun old => some (old &&& v), true⟩

def aFetchOr (v : Word) : Method Word := ⟨.llsc fun old => some (old ||| v), true⟩

def aAnd (v : Word) : Method Word := discard (aFetchAnd v)

def aOr (v : Word) : Method Word := discard (aFetchOr v)

def aInc : Method Word := discard (aFetchAdd 1)

def aDec : Method Word := discard (aFetchAdd (-1))

/-- A plain store between two barriers. -/
def aStore (v : Word) : Method Word := ⟨.store v, false⟩

def code : Op → Method Word
  | .cas t s => aCas t s
  | .swap v => aSwap v
  | .fetchAdd v => aFetchAdd v
  | .fetchAnd v => aFetchAnd v
  | .fetchOr v => aFetchOr v
  | .and v => aAnd v
  | .or v => aOr v
  | .inc => aInc
  | .dec => aDec
  | .store v => aStore v

theorem code_obj (op : Op) : (code op).obj = word op := by
  cases op with
  | cas t s =>
      funext a
      by_cases h : a = t
      · simp [code, aCas, Method.obj, Method.result, Body.effect, word, h]
      · simp [code, aCas, Method.obj, Method.result, Body.effect, word, h]
  | dec =>
      funext a
      simp [code, aDec, aFetchAdd, discard, Method.obj, Method.result, Body.effect, word,
        BitVec.sub_eq_add_neg]
  | _ => rfl

end Aarch64

/-! ## Every history -/

section

variable {ι : Type} [DecidableEq ι] (s₀ : Shared ι Word) {s : Shared ι Word}

/-- **On x86-64 every history is one of the atomic word.** -/
theorem x86_linearizable {es : List (Ev ι Op (Option Word))}
    (h : ((impl X86.code).system (· = s₀)).Trace es) : (atomicObject word s₀.word).Trace es := by
  have hlin := linearizes ι X86.code
  simp only [X86.code_obj] at hlin
  exact hlin.linearizable h

/-- The loop around `a_cas` is overtaken once. -/
theorem x86_linearizable_retry : (atomicObject (ι := Bool) word 3).Trace
    [.call false (.fetchAnd 1), .call true .inc, .ret true none, .ret false (some 4)] :=
  x86_linearizable ⟨3, fun _ => false⟩
    ⟨_, _, ⟨rfl, rfl⟩,
      .visible (.call rfl) <| .silent (.work (i := false) rfl Step.read) <|
      .visible (.call rfl) <| .silent (.work (i := true) rfl Step.locked) <|
      .visible (.ret rfl rfl) <|
      .silent (.work (i := false) rfl (Step.miss (by decide))) <|
      .silent (.work (i := false) rfl Step.read) <|
      .silent (.work (i := false) rfl (Step.hit rfl)) <|
      .visible (.ret rfl rfl) <| .nil _⟩

/-- **On aarch64 too**, whichever store-conditionals fail. -/
theorem aarch64_linearizable {es : List (Ev ι Op (Option Word))}
    (h : ((impl Aarch64.code).system (· = s₀)).Trace es) :
    (atomicObject word s₀.word).Trace es := by
  have hlin := linearizes ι Aarch64.code
  simp only [Aarch64.code_obj] at hlin
  exact hlin.linearizable h

/-- A reservation is broken by the other thread. -/
theorem aarch64_linearizable_retry : (atomicObject (ι := Bool) word 3).Trace
    [.call false (.cas 3 7), .call true .inc, .ret true none, .ret false (some 4)] :=
  aarch64_linearizable ⟨3, fun _ => false⟩
    ⟨_, _, ⟨rfl, rfl⟩,
      .visible (.call rfl) <| .silent (.work (i := false) rfl Step.ll) <|
      .visible (.call rfl) <| .silent (.work (i := true) rfl Step.ll) <|
      .silent (.work (i := true) rfl (Step.sc rfl rfl)) <| .visible (.ret rfl rfl) <|
      .silent (.work (i := false) rfl (Step.scFail rfl)) <|
      .silent (.work (i := false) rfl Step.ll) <|
      .silent (.work (i := false) rfl (Step.leave rfl)) <|
      .visible (.ret rfl rfl) <| .nil _⟩

/-! ## Counters -/

/-- The calls that count. -/
inductive Count where
  | inc
  | dec
  | fetchAdd (v : Word)

def Count.op : Count → Op
  | .inc => .inc
  | .dec => .dec
  | .fetchAdd v => .fetchAdd v

def Count.delta : Count → Word
  | .inc => 1
  | .dec => -1
  | .fetchAdd v => v

theorem Count.op_adds (k : Count) (a : Word) : (word k.op a).1 = a + k.delta := by
  cases k with
  | dec => exact BitVec.sub_eq_add_neg a 1
  | _ => rfl

variable [Fintype ι] {es : List (Ev ι Count (Option Word))}

/-- **A counter loses no update**: when all calls have returned it holds their sum. -/
theorem x86_no_lost_update
    (h : ((impl fun k : Count => X86.code k.op).system (· = s₀)).Run (s₀, fun _ => .idle) es
      (s, fun _ => .idle)) :
    s.word = s₀.word + added Count.delta es := by
  have hlin := linearizes ι fun k : Count => X86.code k.op
  simp only [X86.code_obj] at hlin
  exact hlin.no_lost_update Count.delta Count.op_adds h

theorem x86_no_lost_update_once : (1 : Word) = 0 + added Count.delta
    ([.call () .inc, .ret () none] : List (Ev Unit Count (Option Word))) :=
  x86_no_lost_update ⟨0, fun _ => false⟩ (s := ⟨1, fun _ => false⟩)
    (.visible (.call rfl) <| .silent (.work (i := ()) rfl Step.locked) <|
      .visible (.ret rfl rfl) <| .nil _)

theorem aarch64_no_lost_update
    (h : ((impl fun k : Count => Aarch64.code k.op).system (· = s₀)).Run (s₀, fun _ => .idle) es
      (s, fun _ => .idle)) :
    s.word = s₀.word + added Count.delta es := by
  have hlin := linearizes ι fun k : Count => Aarch64.code k.op
  simp only [Aarch64.code_obj] at hlin
  exact hlin.no_lost_update Count.delta Count.op_adds h

theorem aarch64_no_lost_update_once : (0 : Word) = 1 + added Count.delta
    ([.call () .dec, .ret () none] : List (Ev Unit Count (Option Word))) :=
  aarch64_no_lost_update ⟨1, fun _ => false⟩ (s := ⟨0, fun _ => false⟩)
    (.visible (.call rfl) <| .silent (.work (i := ()) rfl Step.ll) <|
      .silent (.work (i := ()) rfl (Step.sc rfl rfl)) <|
      .visible (.ret rfl rfl) <| .nil _)

end

end LdbToolchain.Atomic
