import LearnCode.Library.AssocList
import LearnCode.Library.Callback
import LearnCode.Library.CheckedLoop
import LearnCode.Library.CInt
import LearnCode.Library.Iterator
import LearnCode.Library.PathStore
import LearnCode.Library.PathOrder
import LearnCode.Library.Reuse
import LearnCode.Library.Schedule
import LearnCode.Library.SortedDict
import LearnCode.Library.Transition
import LearnCode.Swift
import LearnCode.Checked
import LearnCode.Firebase.Value
import LearnCode.Firebase.Database
import LearnCode.Firebase.Backend
import LearnCode.Model
import LearnCode.APIManager.DatabaseManager
import LearnCode.APIManager.UserList
import LearnCode.APIManager.MessageManager
import LearnCode.APIManager.Endings
import LearnCode.APIManager.CallbackProtocol
import LearnCode.Messages.ThreadRead
import LearnCode.Messages.ThreadKey
import LearnCode.Messages.Concurrency
import LearnCode.Messages.Addressing
import LearnCode.Messages.LiveObserver
import LearnCode.Messages.LastMessages
import LearnCode.Messages.Enumeration
import LearnCode.Posts.Feed
import LearnCode.Posts.PostScreen
import LearnCode.Conversation.Refresh
import LearnCode.Conversation.RowBounds
import LearnCode.SignUp.Consistency
import LearnCode.SignUp.ReadBack
import LearnCode.Conversation.Composer
import LearnCode.Conversation.Selection
import LearnCode.Navigation.Session
import LearnCode.View.Cells
import LearnCode.View.CellReuse
import LearnCode.ChatList.Preview
import LearnCode.ChatList.OfflineCache
import LearnCode.Support.SupportChat
import LearnCode.GIF.Loader
import LearnCode.GIF.Safety
import LearnCode.GIF.Timing
import LearnCode.FirebaseDatabase.KeyOrder
import LearnCode.FirebaseDatabase.FLLRBNode
import LearnCode.FirebaseDatabase.FLLRBRemove
import LearnCode.FirebaseDatabase.TreeBuilder
import LearnCode.FirebaseDatabase.FTreeSortedDictionary
import LearnCode.FirebaseDatabase.FImmutableSortedDictionary
import LearnCode.FirebaseDatabase.KeyEnumerators
import LearnCode.FirebaseDatabase.FNode
import LearnCode.FirebaseDatabase.NodeStore
import LearnCode.FirebaseDatabase.FImmutableTree
import LearnCode.FirebaseDatabase.FPath
import LearnCode.FirebaseDatabase.FCompoundWrite
import LearnCode.FirebaseDatabase.PendingWrites
import LearnCode.FirebaseDatabase.FWriteTree
import LearnCode.FirebaseDatabase.WriteLayers
import LearnCode.FirebaseDatabase.WriteRuns
import LearnCode.FirebaseDatabase.TransactionReads
import LearnCode.FirebaseDatabase.FSnapshotUtilities
import LearnCode.FirebaseDatabase.NodeSnapshot
import LearnCode.FirebaseDatabase.CompoundUpdate
