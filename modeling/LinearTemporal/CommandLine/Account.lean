/-!
# Accounts

The home directory of an account, from the list of accounts: one a line, with
colons between its fields.
-/

namespace LinearTemporal
namespace CommandLine
namespace Account

def number? (status : String) : Option String :=
  (status.splitOn "\n").findSome? (fun line =>
    match line.splitOn "\t" with
    | "Uid:" :: number :: _ => some number
    | _ => none)

/-- The home directory of the account with a number. -/
def home? (accounts number : String) : Option String :=
  (accounts.splitOn "\n").findSome? (fun line =>
    match line.splitOn ":" with
    | [_, _, field, _, _, home, _] => if field = number then some home else none
    | _ => none)

end Account
end CommandLine
end LinearTemporal
