import Metcalfe.Lua.Runs

/-!
# The shell

`sleep` tests its argument with the global `type` and gives the shell the number of seconds. The
upvalue `execute` is out of the contract's reach, but `type` is looked up when `sleep` is called.
A contract that binds `type` to a function of its own passes the test with any value
(`forged_type_reaches_shell`): the division and the concatenation then run its metamethods, and
the shell gets their result. As long as `sleep` finds the original function, the shell gets
commands of the form `sleep <seconds>` only (`shell_confined`).
-/

namespace Metcalfe.Lua

open Steps

variable {N : Type} [DecidableEq N] [LuaNumber N]

/-- All that was passed to the captured `os.execute`: `sleep` and the rendering of a number divided
by 1000. -/
def SleepsOnly (st : State N) : Prop :=
  ∀ args, (.os .execute, args) ∈ st.trace →
    ∃ n : N, args = [.str ("sleep " ++ LuaNumber.toStr (LuaNumber.div n (LuaNumber.ofNat 1000)))]

/-- Where `sleep` always finds the original `type`, in every state of the run. -/
theorem shell_confined (ops pre : List (Op N)) (hok : along step typeIntact start ops = true)
    (hpre : pre <+: ops) : SleepsOnly (run pre) := by
  have hpermits : (Policy.mk false true).permits = typeIntact (N := N) := by
    ext st op
    simp [Policy.permits]
  intro args hargs
  have hconfined : Confined ⟨false, true⟩ (run pre) := by
    apply run_confined
    rw [hpermits]
    exact along_of_isPrefix hpre hok
  exact hconfined.trace _ hargs rfl

/-- `os.sleep(3000)`. -/
def nap : List (Op Int) :=
  [.literal (.str "os"), .index (.table .globals) (.str "os"),
   .literal (.str "sleep"), .index (.table (.lib .os)) (.str "sleep"),
   .literal (.num 3000), .call (.func (.init .sleep)) [.num 3000],
   .enter 0, .builtin 0 [.str "number"], .builtin 0 [.bool true, .str "exit", .num 0]]

theorem shell_confined_nap :
    along step typeIntact start nap = true ∧ (.os .execute, [.str "sleep 3"]) ∈ (run nap).trace ∧
      SleepsOnly (run nap) :=
  ⟨by decide +kernel, by decide +kernel,
    shell_confined nap nap (by decide +kernel) (List.prefix_refl nap)⟩

/-- `type = function() return "number" end`, and then `os.sleep` of a table whose `__div` returns
the table and whose `__concat` returns `halt`. -/
def forgedType : List (Op Int) :=
  let type : Value Int := .func (.closure 0)
  let div : Value Int := .func (.closure 1)
  let concat : Value Int := .func (.closure 2)
  let object : Value Int := .table (.new 0)
  let metatable : Value Int := .table (.new 1)
  [.literal (.str "type"), .function 0, .assign (.table .globals) (.str "type") type,
   .newTable, .newTable,
   .literal (.str "__div"), .function 1, .assign metatable (.str "__div") div,
   .literal (.str "__concat"), .function 2, .assign metatable (.str "__concat") concat,
   .literal (.str "setmetatable"), .index (.table .globals) (.str "setmetatable"),
   .call (.func (.builtin (.base .setmetatable))) [object, metatable], .builtin 0 [object],
   .literal (.str "os"), .index (.table .globals) (.str "os"),
   .literal (.str "sleep"), .index (.table (.lib .os)) (.str "sleep"),
   .call (.func (.init .sleep)) [object],
   .enter 0, .literal (.str "number"), .ret 0 [.str "number"],
   .ret 0 [object],
   .literal (.str "halt"), .ret 0 [.str "halt"]]

theorem forged_type_reaches_shell : ¬ SleepsOnly (run forgedType) := by
  intro h
  have hhalt : (.os .execute, [.str "halt"]) ∈ (run forgedType).trace := by decide +kernel
  obtain ⟨n, hn⟩ := h _ hhalt
  have hlength := congrArg String.length (Value.str.inj (List.cons.inj hn).1)
  rw [String.length_append] at hlength
  have hsleep : "sleep ".length = 6 := rfl
  have hshort : "halt".length = 4 := rfl
  omega

end Metcalfe.Lua
