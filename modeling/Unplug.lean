import Unplug.Room.Joins
import Unplug.App.OneRoom
import Unplug.App.GameEnd
import Unplug.App.Session
import Unplug.App.SchemaRuns
import Unplug.App.Accusation
import Unplug.App.Agreement
import Unplug.App.Deadline
import Unplug.App.Congrats
import Unplug.App.AfterResults
import Unplug.App.Stake
import Unplug.App.FirstWrite
import Unplug.App.YouLost
import Unplug.App.TearDown
import Unplug.App.LobbyList
import Unplug.App.Scanner
import Unplug.App.Liveness
import Unplug.App.GameOver
import Unplug.App.Records
import Unplug.App.LoginScreen
import Unplug.App.AccountSessions
import Unplug.App.Roster
import Unplug.App.Spread
import Unplug.App.Unmarked
import Unplug.App.LoginLife
